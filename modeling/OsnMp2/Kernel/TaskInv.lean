import OsnMp2.Kernel.Fault

/-!
# A process keeps its address space

`TaskOk` says that the running process has a user address space and paging metadata about pages of
it. Page faults, kernel copies, `sbrk` and user stores keep it, and act on the frames of the process
only.

## Main definitions

* `TaskOk`: the process and its address space fit together
* `Grow`: the outcomes of `growproc`

## Main results

* `TaskOk.fault`, `TaskOk.growproc`, `TaskOk.setBytes`: what one step preserves
* `copyout_induct`, `copyin_induct`: what faults and writes preserve, kernel copies preserve
* `copyin_reads`: the bytes that `copyin` returns
-/

namespace Xv6

variable {m m' : Mem} {t t' : Task} {root tf : Frame} {own own' : Set Frame}

/-- A page below the trap frame. -/
def IsPage (a : Nat) : Prop := a < trapframeVa ∧ a % pgSize = 0

/-- **The process and its address space fit together.** -/
structure TaskOk (t : Task) (root tf : Frame) (own : Set Frame) : Prop where
  pagetable : t.p.pagetable = some root
  trapframe : t.p.trapframe = some tf
  space : UserSpace t.mem root tf own
  size : t.p.sz ≤ trapframeVa
  resident : ∀ e ∈ t.p.resident, IsPage e.va
  swapped : ∀ e ∈ t.p.swapped, IsPage e.va

/-- A page that is not mapped is neither the trampoline nor the trap frame. -/
theorem UserSpace.isPage (h : UserSpace m root tf own) {va : Nat} (hva : va < maxVa)
    (hnone : m.lookup root va = none) : IsPage (pgRoundDown va) := by
  have h1 : va / pgSize ≠ trampolineVa / pgSize := fun hc => by
    rw [lookup_of_page hc, h.trampoline] at hnone
    cases hnone
  have h2 : va / pgSize ≠ trapframeVa / pgSize := fun hc => by
    rw [lookup_of_page hc, h.trapframe] at hnone
    cases hnone
  unfold IsPage pgRoundDown
  simp only [trapframeVa, trampolineVa, maxVa, pgSize] at *
  omega

/-! ## Page faults -/

theorem Fault.acts {fs : Fs} {va : Nat} {w : Bool} {r : Int} (h : UserSpace t.mem root tf own)
    (hf : Fault fs t va w root own r t' own') : t.mem.Acts own t'.mem own' := by
  cases hf with
  | beyond | readOnly | present | invalid => exact Mem.Acts.refl h.space.owned
  | stopped _ _ _ _ _ kept => exact kept.acts
  | loaded _ _ _ _ _ pageIn => exact pageIn.acts

/-- An eviction keeps the tables in order. -/
theorem Eviction.isPage {p₁ : Proc} {P : Nat → Prop} (hev : Eviction t root p₁ P)
    (hres : ∀ e ∈ t.p.resident, IsPage e.va) (hswap : ∀ e ∈ t.p.swapped, IsPage e.va) :
    (∀ e ∈ p₁.resident, IsPage e.va) ∧ ∀ e ∈ p₁.swapped, IsPage e.va := by
  cases hev with
  | idle slots => exact ⟨hres, hswap⟩
  | discard oldest entry clean =>
    exact ⟨fun e he => hres e (List.mem_of_mem_eraseP he), hswap⟩
  | swapOut oldest entry dirty mapped room free =>
    refine ⟨fun e he => hres e (List.mem_of_mem_eraseP he), fun e he => ?_⟩
    rcases List.mem_append.mp he with he | he
    · exact hswap e he
    · rw [List.mem_singleton.mp he]
      exact hres _ (List.mem_of_getElem? entry)

/-- The fields of a process that no page fault changes. -/
structure SameImage (p p' : Proc) : Prop where
  pagetable : p'.pagetable = p.pagetable
  trapframe : p'.trapframe = p.trapframe
  sz : p'.sz = p.sz
  lazySegs : p'.lazySegs = p.lazySegs
  lazyNseg : p'.lazyNseg = p.lazyNseg
  lazyHeapStart : p'.lazyHeapStart = p.lazyHeapStart
  cwd : p'.cwd = p.cwd
  ofile : p'.ofile = p.ofile
  state : p'.state = p.state
  parent : p'.parent = p.parent
  pid : p'.pid = p.pid
  killed : p'.killed = p.killed

theorem SameImage.refl (p : Proc) : SameImage p p := by constructor <;> rfl

theorem SameImage.trans {p p' p'' : Proc} (h : SameImage p p') (h' : SameImage p' p'') :
    SameImage p p'' where
  pagetable := h'.pagetable.trans h.pagetable
  trapframe := h'.trapframe.trans h.trapframe
  sz := h'.sz.trans h.sz
  lazySegs := h'.lazySegs.trans h.lazySegs
  lazyNseg := h'.lazyNseg.trans h.lazyNseg
  lazyHeapStart := h'.lazyHeapStart.trans h.lazyHeapStart
  cwd := h'.cwd.trans h.cwd
  ofile := h'.ofile.trans h.ofile
  state := h'.state.trans h.state
  parent := h'.parent.trans h.parent
  pid := h'.pid.trans h.pid
  killed := h'.killed.trans h.killed

theorem Eviction.sameImage {p₁ : Proc} {P : Nat → Prop} (hev : Eviction t root p₁ P) :
    SameImage t.p p₁ := by
  cases hev <;> constructor <;> rfl

theorem Fault.sameImage {fs : Fs} {va : Nat} {w : Bool} {r : Int}
    (hf : Fault fs t va w root own r t' own') : SameImage t.p t'.p := by
  cases hf with
  | beyond | readOnly | present | invalid => constructor <;> rfl
  | stopped _ _ _ evict _ _ proc =>
    rcases proc with rfl | ⟨-, slots, rfl⟩
    · exact evict.sameImage
    · exact evict.sameImage.trans (by constructor <;> rfl)
  | loaded _ _ _ evict => exact evict.sameImage.trans (by constructor <;> rfl)

/-- What is mapped when pages went away was mapped. -/
theorem Kept.lookup_eq_some {P : Nat → Prop} (h : Kept m root own P m' own') {va : Nat} {e : Pte}
    (hva : va < maxVa) (he : m'.lookup root va = some e) :
    ¬ P (va / pgSize) ∧ m.lookup root va = some e := by
  by_cases hP : P (va / pgSize)
  · rw [h.gone va hva hP] at he
    cases he
  · rw [h.lookup va hva hP] at he
    exact ⟨hP, he⟩

/-- What is mapped when a page came in is that page, or was mapped. -/
theorem PageIn.lookup_eq_some {P : Nat → Prop} {va va' : Nat} {perm : Perm}
    {b : Nat → UInt8} {e : Pte}
    (h : PageIn m root own P va perm b m' own') (hva : va' < maxVa)
    (he : m'.lookup root va' = some e) :
    va' / pgSize = va / pgSize ∨ ¬ P (va' / pgSize) ∧ m.lookup root va' = some e := by
  by_cases hpage : va' / pgSize = va / pgSize
  · exact Or.inl hpage
  · by_cases hP : P (va' / pgSize)
    · rw [h.gone va' hva hpage hP] at he
      cases he
    · rw [h.lookup va' hva hpage hP] at he
      exact Or.inr ⟨hP, he⟩

/-- A page in the swap array after an eviction was there, or was mapped. -/
theorem Eviction.mem_swapped {p₁ : Proc} {P : Nat → Prop} (hev : Eviction t root p₁ P)
    {e : SwappedPage}
    (he : e ∈ p₁.swapped) : e ∈ t.p.swapped ∨ ∃ pte, t.mem.lookup root e.va = some pte := by
  cases hev with
  | idle | discard => exact Or.inl he
  | swapOut _ _ _ mapped =>
    rcases List.mem_append.mp he with he | he
    · exact Or.inl he
    · rw [List.mem_singleton.mp he]
      exact Or.inr ⟨_, mapped⟩

theorem Fault.mem_swapped {fs : Fs} {va : Nat} {w : Bool} {r : Int}
    (hf : Fault fs t va w root own r t' own') {e : SwappedPage} (he : e ∈ t'.p.swapped) :
    e ∈ t.p.swapped ∨ ∃ pte, t.mem.lookup root e.va = some pte := by
  cases hf with
  | beyond | readOnly | present | invalid => exact Or.inl he
  | stopped _ _ _ evict _ _ proc =>
    rcases proc with rfl | ⟨-, slots, rfl⟩
    · exact evict.mem_swapped he
    · exact evict.mem_swapped (List.mem_of_mem_eraseP he)
  | loaded _ _ _ evict => exact evict.mem_swapped (List.mem_of_mem_eraseP he)

theorem mem_markDirty {a : Nat} {l : List ResidentPage} {e : ResidentPage} (h : e ∈ markDirty a l) :
    ∃ e' ∈ l, e.va = e'.va := by
  unfold markDirty at h
  split at h
  · exact ⟨e, h, rfl⟩
  · next i _ =>
    obtain ⟨j, hj⟩ := List.mem_iff_getElem?.mp h
    rw [List.getElem?_modify] at hj
    obtain ⟨e', he', hee⟩ := Option.map_eq_some_iff.mp hj
    refine ⟨e', List.mem_of_getElem? he', ?_⟩
    rw [← hee]
    split <;> rfl

/-- **A page fault** keeps the process and its address space fitting. -/
theorem TaskOk.fault {fs : Fs} {va : Nat} {w x : Bool} {r : Int} (h : TaskOk t root tf own)
    (hrun : demandPageLoadNew fs va w x t = .ok (r, t')) :
    ∃ own', TaskOk t' root tf own' ∧ t.mem.Acts own t'.mem own' ∧
      Fault fs t va w root own r t' own' := by
  obtain ⟨own', husp, hf⟩ := demandPageLoadNew_spec h.space h.pagetable
    (fun e he => (h.resident e he).1) hrun
  have himg := hf.sameImage
  have hlists : (∀ e ∈ t'.p.resident, IsPage e.va) ∧ ∀ e ∈ t'.p.swapped, IsPage e.va := by
    cases hf with
    | beyond | readOnly | invalid => exact ⟨h.resident, h.swapped⟩
    | present =>
      refine ⟨fun e he => ?_, h.swapped⟩
      dsimp only at he
      split at he
      · obtain ⟨e', he', hva⟩ := mem_markDirty he
        exact hva ▸ h.resident e' he'
      · exact h.resident e he
    | stopped _ _ _ evict _ _ proc =>
      have hev := evict.isPage h.resident h.swapped
      rcases proc with rfl | ⟨-, slots, rfl⟩
      · exact hev
      · exact ⟨hev.1, fun e he => hev.2 e (List.mem_of_mem_eraseP he)⟩
    | loaded low unmapped _ evict =>
      have hev := evict.isPage h.resident h.swapped
      refine ⟨fun e he => ?_, fun e he => hev.2 e (List.mem_of_mem_eraseP he)⟩
      rcases List.mem_append.mp he with he | he
      · exact hev.1 e he
      · rw [List.mem_singleton.mp he]
        exact h.space.isPage low unmapped
  exact ⟨own', ⟨himg.pagetable.trans h.pagetable, himg.trapframe.trans h.trapframe, husp,
    himg.sz ▸ h.size, hlists.1, hlists.2⟩, hf.acts h.space, hf⟩

/-! ## Writing the bytes of a user page -/

theorem pte_setByte (m : Mem) (f : Frame) (b : Nat → UInt8) (a : Frame) :
    ((m.setPage f { m.phys f with byte := b }).phys a).pte = (m.phys a).pte := by
  unfold Mem.setPage
  by_cases ha : a = f
  · subst ha
    simp
  · simp [ha]

theorem pte_setBytes (m : Mem) (f : Frame) (off : Nat) (bs : List UInt8) (a : Frame) :
    ((m.setBytes f off bs).phys a).pte = (m.phys a).pte := pte_setByte m f _ a

/-- Writing bytes of an owned frame keeps the address space. -/
theorem UserSpace.setByte (h : UserSpace m root tf own) {f : Frame} (hf : f ∈ own)
    (b : Nat → UInt8) :
    UserSpace (m.setPage f { m.phys f with byte := b }) root tf own ∧
      m.Acts own (m.setPage f { m.phys f with byte := b }) own := by
  have hacts : m.Acts own (m.setPage f { m.phys f with byte := b }) own :=
    setPage_acts h.space.owned hf
  exact ⟨h.of_held hacts (subset_refl _) h.own_ne fun a _ => pte_setByte m f b a, hacts⟩

theorem UserSpace.lookup_own (h : UserSpace m root tf own) {va : Nat} {e : Pte}
    (he : m.lookup root va = some e) (hu : e.perm.u = true) : e.ppn ∈ own :=
  h.space.leaf_own rfl ((lookup_eq_leaf m root va).symm.trans he) hu

/-- **A user store** keeps the process and its address space fitting. -/
theorem TaskOk.setBytes (h : TaskOk t root tf own) {va : Nat} {e : Pte}
    (he : t.mem.lookup root va = some e) (hu : e.perm.u = true) (off : Nat) (bs : List UInt8) :
    TaskOk ⟨t.mem.setBytes e.ppn off bs, t.p⟩ root tf own ∧
      t.mem.Acts own (t.mem.setBytes e.ppn off bs) own := by
  obtain ⟨husp, hacts⟩ := h.space.setByte (h.space.lookup_own he hu) _
  exact ⟨⟨h.pagetable, h.trapframe, husp, h.size, h.resident, h.swapped⟩, hacts⟩

/-! ## Kernel copies -/

/-- `walkaddr` finds the user page of an address. -/
theorem walkaddr_apply (m : Mem) (root : Frame) {va : Nat} (hva : va < maxVa) :
    walkaddr root va m = .ok ((m.lookup root va).bind
      (fun e => if e.perm.u then some e.ppn else none), m) := by
  unfold walkaddr
  rw [if_neg (by omega), Halting.bind_of_ok (walk_noalloc hva root m)]
  cases hpt : m.node root (vpath va) with
  | none =>
    rw [lookup_of_no_node hpt]
    rfl
  | some pt =>
    rw [lookup_of_node hpt]
    dsimp only [Option.map_some]
    rw [Halting.bind_of_ok (readPte_apply _ _ _)]
    cases hv : (m.tbl pt (px 0 va)).v with
    | false => rfl
    | true =>
      cases hu : (m.tbl pt (px 0 va)).perm.u with
      | false => simp [hu]
      | true => simp [hu]

theorem onMem_walkaddr {va : Nat} (hva : va < maxVa) :
    onMem (walkaddr root va) t =
      .ok ((t.mem.lookup root va).bind (fun e => if e.perm.u then some e.ppn else none), t) := by
  unfold onMem Halting.zoom
  rw [walkaddr_apply t.mem root hva]

/-- `walkaddr`, with a fault when it finds nothing. -/
theorem walkaddrFault_spec {fs : Fs} {va : Nat} {w : Bool} {r : Option Frame} (hva : va < maxVa)
    (hrun : walkaddrFault fs root va w t = .ok (r, t')) :
    (t' = t ∧ ∃ e, t.mem.lookup root va = some e ∧ e.perm.u = true ∧ r = some e.ppn) ∨
    ((∀ e, t.mem.lookup root va = some e → e.perm.u = false) ∧ ∃ r',
      demandPageLoadNew fs va w false t = .ok (r', t') ∧
      ((r' ≠ 0 ∧ r = none) ∨
        (r' = 0 ∧ r = (t'.mem.lookup root va).bind fun e => if e.perm.u then some e.ppn
         else none))) := by
  unfold walkaddrFault at hrun
  rw [Halting.bind_of_ok (onMem_walkaddr hva)] at hrun
  by_cases hmap : ∃ e, t.mem.lookup root va = some e ∧ e.perm.u = true
  · obtain ⟨e, he, hu⟩ := hmap
    rw [he, Option.bind_some, if_pos hu] at hrun
    obtain ⟨rfl, rfl⟩ := Halting.pure_eq_ok.mp hrun
    exact Or.inl ⟨rfl, e, he, hu, rfl⟩
  · have hno : ∀ e, t.mem.lookup root va = some e → e.perm.u = false := fun e he => by
      cases hu : e.perm.u with
      | false => rfl
      | true => exact absurd ⟨e, he, hu⟩ hmap
    have hnone : ((t.mem.lookup root va).bind fun e => if e.perm.u then some e.ppn else none) =
        none := by
      cases he : t.mem.lookup root va with
      | none => rfl
      | some e => rw [Option.bind_some, if_neg (by rw [hno e he]; decide)]
    rw [hnone] at hrun
    obtain ⟨r', t₁, hf, hrun⟩ := Halting.bind_eq_ok.mp hrun
    refine Or.inr ⟨hno, r', ?_⟩
    split at hrun
    · next hne =>
      obtain ⟨rfl, rfl⟩ := Halting.pure_eq_ok.mp hrun
      exact ⟨hf, Or.inl ⟨hne, rfl⟩⟩
    · next heq =>
      rw [onMem_walkaddr hva] at hrun
      cases hrun
      exact ⟨hf, Or.inr ⟨by simpa using heq, rfl⟩⟩

theorem pgRoundDown_le (a : Nat) : pgRoundDown a ≤ a := Nat.div_mul_le_self a pgSize

/-- What `walkaddr` with a fault leaves: the frame of a user page that is mapped now. -/
theorem walkaddrFault_mapped {fs : Fs} {va : Nat} {w : Bool} {r : Option Frame} (hva : va < maxVa)
    (hrun : walkaddrFault fs root va w t = .ok (r, t')) {f : Frame} (hf : r = some f) :
    ∃ e, t'.mem.lookup root va = some e ∧ e.perm.u = true ∧ f = e.ppn := by
  rcases walkaddrFault_spec hva hrun with ⟨rfl, e, he, hu, rfl⟩ | ⟨-, r', -, ⟨-, rfl⟩ | ⟨-, rfl⟩⟩
  · exact ⟨e, he, hu, (Option.some.inj hf).symm⟩
  · cases hf
  · obtain ⟨e, he, hif⟩ := Option.bind_eq_some_iff.mp hf
    split at hif
    · next hu => exact ⟨e, he, hu, (Option.some.inj hif).symm⟩
    · cases hif

/-- How much of the `n` bytes from `va` on lies in the page of `va`. -/
def inPage (va n : Nat) : Nat := min (pgSize - (va - pgRoundDown va)) n

/-- **The induction rule for `copyout`**, with the address and the bytes that are left: what the
page faults and the writes to writable user pages of the loop preserve holds when it ends, with
nothing left when it returns 0. -/
theorem copyout_induct {fs : Fs} {I : Nat → List UInt8 → Task → Prop}
    (hfault : ∀ t t' dst src r, I dst src t → src ≠ [] → pgRoundDown dst < maxVa →
      (∀ e, t.mem.lookup root (pgRoundDown dst) = some e → e.perm.u = false) →
      demandPageLoadNew fs (pgRoundDown dst) true false t = .ok (r, t') → I dst src t')
    (hwrite : ∀ t dst src e, I dst src t → src ≠ [] → pgRoundDown dst < maxVa →
      t.mem.lookup root (pgRoundDown dst) = some e → e.perm.u = true → e.perm.w = true →
      I (pgRoundDown dst + pgSize) (src.drop (inPage dst src.length))
        ⟨t.mem.setBytes e.ppn (dst - pgRoundDown dst) (src.take (inPage dst src.length)), t.p⟩) :
    ∀ fuel {dst : Nat} {src rest : List UInt8} {t t' : Task} {r : Int}, I dst src t →
      copyoutLoop fs root fuel dst src t = .ok ((r, rest), t') →
      (∃ dst', I dst' rest t') ∧ (src.length ≤ fuel → r = 0 → rest = []) ∧ (r = 0 ∨ r = -1) := by
  intro fuel
  induction fuel with
  | zero =>
    intro dst src rest t t' r hI hrun
    obtain ⟨hr, rfl⟩ := Halting.pure_eq_ok.mp hrun
    obtain ⟨rfl, rfl⟩ := Prod.mk.inj hr
    exact ⟨⟨dst, hI⟩, fun hlen _ => List.length_eq_zero_iff.mp (by omega), Or.inl rfl⟩
  | succ fuel ih =>
    intro dst src rest t t' r hI hrun
    rw [copyoutLoop] at hrun
    split at hrun
    · next hlen =>
      obtain ⟨hr, rfl⟩ := Halting.pure_eq_ok.mp hrun
      obtain ⟨rfl, rfl⟩ := Prod.mk.inj hr
      exact ⟨⟨dst, hI⟩, fun _ _ => List.length_eq_zero_iff.mp hlen, Or.inl rfl⟩
    next hlen =>
    have hsrc : src ≠ [] := fun hc => hlen (by rw [hc]; rfl)
    split at hrun
    · obtain ⟨hr, rfl⟩ := Halting.pure_eq_ok.mp hrun
      obtain ⟨rfl, rfl⟩ := Prod.mk.inj hr
      exact ⟨⟨dst, hI⟩, fun _ hc => absurd hc (by decide), Or.inr rfl⟩
    next hlow =>
    have hva : pgRoundDown dst < maxVa := by omega
    obtain ⟨o, t₁, hwf, hrun⟩ := Halting.bind_eq_ok.mp hrun
    have hI₁ : I dst src t₁ := by
      rcases walkaddrFault_spec hva hwf with ⟨rfl, -⟩ | ⟨hno, r', hf, -⟩
      · exact hI
      · exact hfault _ _ _ _ _ hI hsrc hva hno hf
    cases o with
    | none =>
      obtain ⟨hr, rfl⟩ := Halting.pure_eq_ok.mp hrun
      obtain ⟨rfl, rfl⟩ := Prod.mk.inj hr
      exact ⟨⟨dst, hI₁⟩, fun _ hc => absurd hc (by decide), Or.inr rfl⟩
    | some f =>
      obtain ⟨e, he, hu, rfl⟩ := walkaddrFault_mapped hva hwf rfl
      dsimp only at hrun
      rw [Halting.bind_of_ok (onMem_walk hva)] at hrun
      cases hpt : t₁.mem.node root (vpath (pgRoundDown dst)) with
      | none =>
        rw [hpt] at hrun
        cases hrun
      | some pt =>
        rw [hpt] at hrun
        dsimp only [Option.map_some] at hrun
        rw [Halting.bind_of_ok (onMem_readPte _ _ _)] at hrun
        -- the entry that is checked for `PTE_W` is the one of the page
        have hpte : t₁.mem.tbl pt (px 0 (pgRoundDown dst)) = e := by
          rw [lookup_of_node hpt] at he
          split at he
          · exact Option.some.inj he
          · cases he
        rw [hpte] at hrun
        split at hrun
        · obtain ⟨hr, rfl⟩ := Halting.pure_eq_ok.mp hrun
          obtain ⟨rfl, rfl⟩ := Prod.mk.inj hr
          exact ⟨⟨dst, hI₁⟩, fun _ hc => absurd hc (by decide), Or.inr rfl⟩
        · next hw =>
          obtain ⟨_, t₂, hset, hrun⟩ := Halting.bind_eq_ok.mp hrun
          cases hset
          have hI₂ := hwrite t₁ dst src e hI₁ hsrc hva he hu (by simpa using hw)
          obtain ⟨hex, hdone, hres⟩ := ih hI₂ hrun
          refine ⟨hex, fun hfuel hr => hdone ?_ hr, hres⟩
          have hoff : dst - pgRoundDown dst < pgSize := by
            unfold pgRoundDown pgSize
            omega
          rw [List.length_drop, inPage]
          omega

/-- **The induction rule for `copyin`**, with the address, the number of bytes that are left and the
bytes that were read. -/
theorem copyin_induct {fs : Fs} {I : Nat → Nat → List UInt8 → Task → Prop}
    (hfault : ∀ t t' src len dst r, I src len dst t → len ≠ 0 → pgRoundDown src < maxVa →
      (∀ e, t.mem.lookup root (pgRoundDown src) = some e → e.perm.u = false) →
      demandPageLoadNew fs (pgRoundDown src) false false t = .ok (r, t') → I src len dst t')
    (hread : ∀ t src len dst e, I src len dst t → len ≠ 0 → pgRoundDown src < maxVa →
      t.mem.lookup root (pgRoundDown src) = some e → e.perm.u = true →
      I (pgRoundDown src + pgSize) (len - inPage src len)
        (dst ++ t.mem.bytes e.ppn (src - pgRoundDown src) (inPage src len)) t) :
    ∀ fuel {src len : Nat} {dst dst' : List UInt8} {t t' : Task} {r : Int}, I src len dst t →
      copyinLoop fs root fuel src len dst t = .ok ((r, dst'), t') →
      ∃ src' len', I src' len' dst' t' ∧ (len ≤ fuel → r = 0 → len' = 0) ∧ (r = 0 ∨ r = -1) := by
  intro fuel
  induction fuel with
  | zero =>
    intro src len dst dst' t t' r hI hrun
    obtain ⟨hr, rfl⟩ := Halting.pure_eq_ok.mp hrun
    obtain ⟨rfl, rfl⟩ := Prod.mk.inj hr
    exact ⟨src, len, hI, fun hlen _ => by omega, Or.inl rfl⟩
  | succ fuel ih =>
    intro src len dst dst' t t' r hI hrun
    rw [copyinLoop] at hrun
    split at hrun
    · next hlen =>
      obtain ⟨hr, rfl⟩ := Halting.pure_eq_ok.mp hrun
      obtain ⟨rfl, rfl⟩ := Prod.mk.inj hr
      exact ⟨src, len, hI, fun _ _ => hlen, Or.inl rfl⟩
    next hlen =>
    split at hrun
    · obtain ⟨hr, rfl⟩ := Halting.pure_eq_ok.mp hrun
      obtain ⟨rfl, rfl⟩ := Prod.mk.inj hr
      exact ⟨src, len, hI, fun _ hc => absurd hc (by decide), Or.inr rfl⟩
    next hlow =>
    have hva : pgRoundDown src < maxVa := by omega
    obtain ⟨o, t₁, hwf, hrun⟩ := Halting.bind_eq_ok.mp hrun
    have hI₁ : I src len dst t₁ := by
      rcases walkaddrFault_spec hva hwf with ⟨rfl, -⟩ | ⟨hno, r', hf, -⟩
      · exact hI
      · exact hfault _ _ _ _ _ _ hI hlen hva hno hf
    cases o with
    | none =>
      obtain ⟨hr, rfl⟩ := Halting.pure_eq_ok.mp hrun
      obtain ⟨rfl, rfl⟩ := Prod.mk.inj hr
      exact ⟨src, len, hI₁, fun _ hc => absurd hc (by decide), Or.inr rfl⟩
    | some f =>
      obtain ⟨e, he, hu, rfl⟩ := walkaddrFault_mapped hva hwf rfl
      dsimp only at hrun
      rw [Halting.bind_of_ok (Halting.get_apply _)] at hrun
      obtain ⟨src', len', hI', hdone, hres⟩ := ih (hread t₁ src len dst e hI₁ hlen hva he hu) hrun
      refine ⟨src', len', hI', fun hfuel hr => hdone ?_ hr, hres⟩
      have hoff : src - pgRoundDown src < pgSize := by
        unfold pgRoundDown pgSize
        omega
      rw [inPage]
      omega

/-- **What `copyin` reads**: when the bytes of every page that it reads are as `V` says, then so are
the bytes it returns. -/
theorem copyin_reads {fs : Fs} {J : Nat → Task → Prop} {V : Nat → UInt8 → Prop} {src len : Nat}
    {r : Int} {bytes : List UInt8}
    (hfault : ∀ t t' a r, J a t → pgRoundDown a < maxVa →
      (∀ e, t.mem.lookup root (pgRoundDown a) = some e → e.perm.u = false) →
      demandPageLoadNew fs (pgRoundDown a) false false t = .ok (r, t') → J a t')
    (hread : ∀ t a e, J a t → pgRoundDown a < maxVa →
      t.mem.lookup root (pgRoundDown a) = some e → e.perm.u = true →
      J (pgRoundDown a + pgSize) t ∧
        ∀ b, a ≤ b → b / pgSize = a / pgSize → V b ((t.mem.phys e.ppn).byte (b % pgSize)))
    (hJ : J src t) (hrun : copyin fs root src len t = .ok ((r, bytes), t')) :
    (∃ a, J a t') ∧ (r = 0 → bytes.length = len) ∧ (∀ n b, bytes[n]? = some b → V (src + n) b) ∧
      (r = 0 ∨ r = -1) := by
  obtain ⟨a, n, ⟨hJ', hlen, -, hV⟩, hdone, hres⟩ := copyin_induct
    (I := fun a n dst t' => J a t' ∧ dst.length + n = len ∧ (n ≠ 0 → a = src + dst.length) ∧
      ∀ n b, dst[n]? = some b → V (src + n) b)
    (fun t t' a n dst r ⟨h, hrest⟩ _ hlow hno hf => ⟨hfault t t' a r h hlow hno hf, hrest⟩)
    (fun t a n dst e ⟨h, hlen, hpos, hV⟩ hn hlow he hu => by
      obtain ⟨h', hbytes⟩ := hread t a e h hlow he hu
      have ha := hpos hn
      have hin : inPage a n ≤ n := Nat.min_le_right _ _
      refine ⟨h', ?_, fun hne => ?_, fun n' b hb => ?_⟩
      · simp only [List.length_append, Mem.bytes, List.length_map, List.length_range]
        omega
      · simp only [List.length_append, Mem.bytes, List.length_map, List.length_range]
        simp only [inPage, pgRoundDown, pgSize] at hne ⊢
        omega
      · by_cases hlt : n' < dst.length
        · rw [List.getElem?_append_left hlt] at hb
          exact hV n' b hb
        · rw [List.getElem?_append_right (by omega), Mem.bytes, List.getElem?_map] at hb
          obtain ⟨j, hj, rfl⟩ := Option.map_eq_some_iff.mp hb
          rw [List.getElem?_range] at hj
          · obtain rfl := Option.some.inj hj
            have hlt' : n' - dst.length < inPage a n := by
              by_contra hc
              rw [List.getElem?_eq_none (by simp; omega)] at hb
              cases hb
            have hoff : a - pgRoundDown a + (n' - dst.length) = (src + n') % pgSize := by
              simp only [inPage, pgRoundDown, pgSize] at *
              omega
            rw [hoff]
            refine hbytes (src + n') (by omega) ?_
            simp only [inPage, pgRoundDown, pgSize] at *
            omega
          · by_contra hc
            rw [List.getElem?_eq_none (by simpa using hc)] at hj
            cases hj)
    _ ⟨hJ, by simp, fun _ => by simp, fun n b hb => by simp at hb⟩ hrun
  refine ⟨⟨a, hJ'⟩, fun hr => ?_, hV, hres⟩
  have := hdone le_rfl hr
  omega

/-! ## `sbrk` -/

/-- **The outcomes of `growproc`.** -/
inductive Grow (n : Int) (t : Task) (root : Frame) (own : Set Frame) : Int → Task → Set Frame → Prop
  /-- too large, or below the heap -/
  | refused (why : 0 < n ∨ n < 0 ∧ shrunkSize t.p.sz n < t.p.lazyHeapStart) :
      Grow n t root own (-1) t own
  | grown (pos : 0 < n) (limit : u64 (t.p.sz + n.toNat) ≤ 100 * 1024 * 1024) :
      Grow n t root own 0 ⟨t.mem, { t.p with sz := u64 (t.p.sz + n.toNat) }⟩ own
  | same (zero : n = 0) : Grow n t root own 0 t own
  /-- a shrink that wrapped leaves everything as it is -/
  | wrapped (neg : n < 0) (large : t.p.sz ≤ shrunkSize t.p.sz n) : Grow n t root own 0 t own
  | shrunk {m' : Mem} {own' : Set Frame} (neg : n < 0)
      (heap : t.p.lazyHeapStart ≤ shrunkSize t.p.sz n) (small : shrunkSize t.p.sz n < t.p.sz)
      (unmapped : Unmapped t.mem root own (fun q =>
        pgRoundUp (shrunkSize t.p.sz n) / pgSize ≤ q ∧ q < pgRoundUp t.p.sz / pgSize) m' own') :
      Grow n t root own 0 ⟨m', { t.p with
        resident := t.p.resident.filter fun e =>
          !(shrunkSize t.p.sz n ≤ e.va && e.va < t.p.sz)
        sz := shrunkSize t.p.sz n }⟩ own'

theorem growproc_spec {n r : Int} (h : TaskOk t root tf own) (hrun : growproc n t = .ok (r, t')) :
    ∃ own', UserSpace t'.mem root tf own' ∧ Grow n t root own r t' own' := by
  unfold growproc at hrun
  rw [Halting.bind_of_ok (Halting.get_apply _)] at hrun
  split at hrun
  · next hpos =>
    split at hrun
    · obtain ⟨rfl, rfl⟩ := Halting.pure_eq_ok.mp hrun
      exact ⟨own, h.space, .refused (Or.inl hpos)⟩
    · next hlim =>
      obtain ⟨_, t₁, hset, hrun⟩ := Halting.bind_eq_ok.mp hrun
      cases hset
      obtain ⟨rfl, rfl⟩ := Halting.pure_eq_ok.mp hrun
      exact ⟨own, h.space, .grown hpos (by omega)⟩
  next hpos =>
  split at hrun
  · next hneg =>
    split at hrun
    · next hheap =>
      obtain ⟨rfl, rfl⟩ := Halting.pure_eq_ok.mp hrun
      exact ⟨own, h.space, .refused (Or.inr ⟨hneg, hheap⟩)⟩
    · next hheap =>
      obtain ⟨_, t₁, hset, hrun⟩ := Halting.bind_eq_ok.mp hrun
      cases hset
      rw [Halting.bind_of_ok (pagetableOf_apply (by exact h.pagetable))] at hrun
      obtain ⟨sz, t₂, hde, hrun⟩ := Halting.bind_eq_ok.mp hrun
      obtain ⟨m₂, hdm, rfl⟩ := onMem_eq_ok.mp hde
      obtain ⟨_, t₃, hset', hrun⟩ := Halting.bind_eq_ok.mp hrun
      cases hset'
      obtain ⟨rfl, rfl⟩ := Halting.pure_eq_ok.mp hrun
      rcases h.space.uvmdealloc h.size hdm with ⟨hle, rfl, rfl⟩ | ⟨hlt, rfl, own', husp, hun⟩
      · -- nothing is at or above the new size and below the old one
        have hfilter : (t.p.resident.filter fun e =>
            !(shrunkSize t.p.sz n ≤ e.va && e.va < t.p.sz)) = t.p.resident := by
          refine List.filter_eq_self.mpr fun e _ => ?_
          simp only [Bool.not_eq_true', Bool.and_eq_false_iff, decide_eq_false_iff_not]
          omega
        refine ⟨own, h.space, ?_⟩
        have hg : Grow n t root own 0 t own := .wrapped hneg hle
        simpa only [hfilter] using hg
      · exact ⟨own', husp, .shrunk hneg (by omega) hlt hun⟩
  · next hneg =>
    obtain ⟨rfl, rfl⟩ := Halting.pure_eq_ok.mp hrun
    exact ⟨own, h.space, .same (by omega)⟩

/-- **`growproc`** keeps the process and its address space fitting. -/
theorem TaskOk.growproc {n r : Int} (h : TaskOk t root tf own)
    (hrun : Xv6.growproc n t = .ok (r, t')) :
    ∃ own', TaskOk t' root tf own' ∧ t.mem.Acts own t'.mem own' ∧ Grow n t root own r t' own' := by
  obtain ⟨own', husp, hg⟩ := growproc_spec h hrun
  refine ⟨own', ?_, ?_, hg⟩
  · cases hg with
    | refused | same | wrapped => exact h
    | grown pos limit =>
      refine ⟨h.pagetable, h.trapframe, husp, ?_, h.resident, h.swapped⟩
      simp only [trapframeVa, trampolineVa, maxVa, pgSize] at *
      omega
    | shrunk neg heap small unmapped =>
      refine ⟨h.pagetable, h.trapframe, husp, ?_,
        fun e he => h.resident e (List.mem_of_mem_filter he), h.swapped⟩
      have := h.size
      dsimp only at *
      omega
  · cases hg with
    | refused | same | wrapped | grown => exact Mem.Acts.refl h.space.space.owned
    | shrunk neg heap small unmapped => exact unmapped.acts

end Xv6
