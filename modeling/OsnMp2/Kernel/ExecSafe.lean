import OsnMp2.Kernel.Returns
import OsnMp2.Kernel.Image

/-!
# `exec` on arbitrary files

The only arithmetic that `exec` checks is that `vaddr + memsz` does not wrap. The rounding to a
page, the two pages that are added for the guard and the stack, and the address of the stack page
are not checked. A segment that ends within two pages of the trap frame, or higher, makes `mappages`
panic: `remap` for the trap frame and the trampoline, `walk` above. A segment that ends within two
pages of 2⁶⁴ makes the sum wrap, and `exec` succeeds with a size of one or two pages.

Everything else returns: with the headers read, `exec` returns -1 or the number of arguments.

## Main definitions

* `HeadersRead`: the file system delivers the headers
* `ExecSafe`: `exec` does not panic in the memory functions, and returns what it should
* `ExecInRange`: the condition on the file

## Main results

* `exec_safe_iff`: `exec` is safe exactly under the condition
* `exec_walk_panic`: an executable on which it panics
-/

namespace Xv6

open Halting

variable {k k' : Kernel} {i : Nat} {t t' : Task} {m m' : Mem} {root tf : Frame}
  {own own' : Set Frame} {fs : Fs} {ip : Nat} {argv : List (List UInt8)}

/-! ## Reading the headers -/

theorem liftFs_eq_error {α : Type} {x : Except Halt α} {e : Halt} :
    liftFs x t = .error e ↔ x = .error e := by
  unfold liftFs
  cases x with
  | error e' => simp [Except.map]
  | ok b => simp [Except.map]

/-- The reads of `exec` return: of the ELF header, and of the program headers that it announces. -/
structure HeadersRead (fs : Fs) (ip : Nat) : Prop where
  elf : ∃ x, readi fs ip 0 elfHdrSize = .ok x
  prog : ∀ hdr, elfHdrOf (fs.content ip) = some hdr → ∀ n, n < hdr.phnum →
    ∃ x, readi fs ip (hdr.phoff + n * progHdrSize) progHdrSize = .ok x

/-- One round of the loop over the headers, once the header is read. -/
theorem recordSegs_succ {off : Nat} {x : Nat × (Nat → UInt8)}
    (hread : readi fs ip off progHdrSize = .ok x) (n sz : Nat) (t : Task) :
    (∃ t₁ sz', recordSegs fs ip (n + 1) off sz t = recordSegs fs ip n (off + progHdrSize) sz' t₁) ∨
      recordSegs fs ip (n + 1) off sz t = .ok (none, t) := by
  obtain ⟨r, bytes⟩ := x
  rw [recordSegs, bind_of_ok (liftFs_eq_ok.mpr ⟨hread, rfl⟩)]
  dsimp only
  split
  · exact Or.inr rfl
  split
  · exact Or.inl ⟨t, _, rfl⟩
  split
  · exact Or.inr rfl
  rw [bind_of_ok (get_apply _)]
  split
  · exact Or.inl ⟨_, _, rfl⟩
  · exact Or.inr rfl

/-- A loop over headers that are not delivered halts in the file system. -/
theorem recordSegs_of_error {n off sz : Nat} {e : Halt}
    (hread : readi fs ip off progHdrSize = .error e) :
    recordSegs fs ip (n + 1) off sz t = .error e := by
  rw [recordSegs]
  exact bind_eq_error.mpr (Or.inl (liftFs_eq_error.mpr hread))

/-- **The loop over the headers** returns when they are delivered, and halts only in the file
system. -/
theorem recordSegs_outcome (fs : Fs) (ip : Nat) : ∀ (n off sz : Nat) (t : Task),
    (∀ e, recordSegs fs ip n off sz t = .error e → e.FromFs) ∧
    ((∀ j, j < n → ∃ x, readi fs ip (off + j * progHdrSize) progHdrSize = .ok x) →
      Returns (recordSegs fs ip n off sz) t) ∧
    ∀ x t', recordSegs fs ip n off sz t = .ok (some x, t') →
      ∀ j, j < n → ∃ y, readi fs ip (off + j * progHdrSize) progHdrSize = .ok y := by
  intro n
  induction n with
  | zero =>
    intro off sz t
    refine ⟨fun e he => ?_, fun _ => returns_pure _, fun _ _ _ j hj => absurd hj
      (Nat.not_lt_zero j)⟩
    cases he
  | succ n ih =>
    intro off sz t
    -- the headers after the first one
    have hnext : ∀ j, off + (j + 1) * progHdrSize = off + progHdrSize + j * progHdrSize :=
      fun j => by
      simp only [progHdrSize]
      omega
    cases hread : readi fs ip off progHdrSize with
    | error e =>
      have hrun : recordSegs fs ip (n + 1) off sz t = .error e := recordSegs_of_error hread
      refine ⟨fun e' he => ?_, fun hall => ?_, fun x t' hok => ?_⟩
      · obtain rfl := Except.error.inj (hrun.symm.trans he)
        exact readi_error hread
      · obtain ⟨x, hx⟩ := hall 0 (Nat.succ_pos n)
        rw [Nat.zero_mul, Nat.add_zero, hread] at hx
        cases hx
      · rw [hrun] at hok
        cases hok
    | ok y =>
      rcases recordSegs_succ hread n sz t with ⟨t₁, sz', hrun⟩ | hrun
      · obtain ⟨herr, hret, hreads⟩ := ih (off + progHdrSize) sz' t₁
        refine ⟨fun e he => herr e (hrun.symm.trans he), fun hall => ?_, fun x t' hok j hj => ?_⟩
        · unfold Returns
          rw [hrun]
          refine hret fun j hj => ?_
          rw [← hnext]
          exact hall (j + 1) (Nat.succ_lt_succ hj)
        · cases j with
          | zero => exact ⟨y, by rw [Nat.zero_mul, Nat.add_zero, hread]⟩
          | succ j =>
            rw [hnext]
            exact hreads x t' (hrun.symm.trans hok) j (Nat.lt_of_succ_lt_succ hj)
      · refine ⟨fun e he => ?_, fun _ => ⟨_, _, hrun⟩, fun x t' hok => ?_⟩
        · rw [hrun] at he
          cases he
        · rw [hrun] at hok
          cases hok

/-! ## The stack page and the commit -/

theorem returns_onMem {α : Type} {x : VM α} (h : Returns x t.mem) : Returns (onMem x) t :=
  returns_zoom h

/-- `mappages` of one page leaves the end of the kernel where it is. -/
theorem Space.mappages_kend {shared : Set Frame} (h : Space m root shared own) {va : Nat}
    {f : Frame} {perm : Perm} {r : Int} (hrun : mappages root va pgSize f perm m = .ok (r, m')) :
    m'.kend = m.kend := by
  unfold mappages at hrun
  split at hrun
  · cases hrun
  rw [if_neg (by decide), if_neg (by decide), show pgSize / pgSize = 0 + 1 from rfl,
    mappagesLoop] at hrun
  obtain ⟨o, m₁, hw, hrun⟩ := bind_eq_ok.mp hrun
  obtain ⟨own₁, -, hgrown, -⟩ := walk_alloc_spec h hw
  cases o with
  | none =>
    cases hrun
    exact hgrown.acts.kend
  | some fi =>
    obtain ⟨pt, j⟩ := fi
    dsimp only at hrun
    rw [bind_of_ok (readPte_apply _ _ _)] at hrun
    split at hrun
    · cases hrun
    · cases hrun
      exact hgrown.acts.kend

theorem execBad_returns (h : UserSpace t.mem root tf own) (hpool : Pool t.mem own) :
    Returns (execBad root) t := by
  unfold execBad
  refine returns_bind (returns_onMem (procFreepagetable_returns h hpool (by decide))) fun _ _ _ =>
    ?_
  exact returns_pure _

/-- **The part of `exec` after the headers** returns when the stack page is below the trap
frame, or gets no frame. -/
theorem execStack_returns {new : Frame} {ownn : Set Frame} {segs entry : Nat} (hargv : ArgvOk argv)
    (hold : Apart t.mem root tf own ownn) (hp : t.p.pagetable = some root)
    (hsz : t.p.sz ≤ trapframeVa)
    (hnew : UserSpace t.mem new tf ownn)
    (hnone : ∀ va, va < trapframeVa → t.mem.lookup new va = none)
    (hpool : Pool t.mem ownn) (hown : ∀ a ∈ own, t.mem.Allocatable a)
    (hbase : ∀ f m₁, kalloc t.mem = .ok (some f, m₁) →
      execStackbase (execSize segs) < trapframeVa) :
    Returns (execStack fs new (execSize segs) entry argv) t := by
  obtain ⟨hal, hsize⟩ := execStackbase_spec segs
  obtain ⟨base, hb⟩ : ∃ base, base = execStackbase (execSize segs) := ⟨_, rfl⟩
  rw [← hb] at hal hsize hbase
  unfold execStack
  rw [← hb, pgRoundDown_of_aligned hal]
  refine returns_bind (returns_onMem (kalloc_returns _)) fun o t₁ hkal => ?_
  obtain ⟨m₁, hm₁, rfl⟩ := onMem_eq_ok.mp hkal
  rcases hnew.kalloc_holds hm₁ with ⟨rfl, -, h₁, hk₁⟩ | ⟨f, rfl, hholds⟩
  · exact execBad_returns (t := ⟨m₁, t.p⟩) h₁ (hpool.acts hk₁.acts)
  have hlow := hbase f m₁ hm₁
  have hlow' : base < maxVa := hlow.trans (by decide)
  have hholds₂ := hholds.setPage (PhysPage.fill 0)
  have hpool₂ := hpool.acts hholds₂.acts
  refine returns_bind_of_ok rfl ?_
  have hnone₂ : (m₁.setPage f (PhysPage.fill 0)).lookup new base = none :=
    (hholds₂.lookup hnew base).trans (hnone base hlow)
  refine returns_bind (returns_onMem (mappages_returns hholds₂.held.user.space f _ hal
    hlow' hnone₂)) fun r₃ t₃ hmap => ?_
  obtain ⟨m₃, hm₃, rfl⟩ := onMem_eq_ok.mp hmap
  have hkend := hholds₂.held.user.space.mappages_kend hm₃
  rcases hholds₂.mapUser (Kept.refl hnew.space.owned) hnew rfl rfl hm₃ with
    ⟨rfl, -, hback⟩ | ⟨rfl, own₃, h₃, hin⟩
  · -- no page-table page for the stack page
    rw [if_pos (by decide)]
    have hf : m₃.Allocatable f := by
      have := hpool₂ f (Or.inl (Or.inr rfl))
      unfold Mem.Allocatable at this ⊢
      rwa [hkend]
    refine returns_bind (returns_onMem (kfree_returns hf)) fun _ t₄ hkf => ?_
    obtain ⟨m₄, hm₄, rfl⟩ := onMem_eq_ok.mp hkf
    obtain ⟨own₄, h₄, hk₄⟩ := hback m₄ hm₄
    exact execBad_returns (t := ⟨m₄, t.p⟩) h₄ (hpool.acts hk₄.acts)
  rw [if_neg (by decide)]
  obtain ⟨g, hg, hgb⟩ := hin.page
  have hzero : (m₃.phys g).byte = fun _ => 0 := by
    rw [hgb, Mem.setPage]
    simp only [Function.update_self]
    rfl
  obtain ⟨b, heq, -⟩ := pushStack_eq fs (t := ⟨m₃, t.p⟩) hargv ⟨hal, hlow', _, hg, rfl,
    rfl, rfl⟩ hzero
  rw [← hsize hlow'] at heq
  refine returns_bind_of_ok heq ?_
  have hgown : g ∈ own₃ := h₃.lookup_own hg rfl
  obtain ⟨h₄, hacts₄⟩ := h₃.setByte hgown b
  have hacts : t.mem.Acts ownn (m₃.setPage g { m₃.phys g with byte := b }) own₃ :=
    hin.acts.trans hacts₄
  cases stackImage base (execSize segs) argv with
  | none => exact execBad_returns (t := ⟨_, t.p⟩) h₄ (hpool.acts hacts)
  | some x =>
    -- the old page table is freed
    have hold₄ := hold.acts hacts
    have hpoolo : Pool (m₃.setPage g { m₃.phys g with byte := b }) own := by
      rintro a (ha | ha)
      · exact (hacts.allocatable a).mpr (hown a ha)
      · exact hpool.acts hacts a (Or.inr ha)
    refine returns_bind ?_ fun _ _ _ => returns_pure _
    unfold execCommit
    refine returns_bind_of_ok (get_apply _) ?_
    refine returns_bind_of_ok rfl ?_
    rw [show t.p.pagetable = some root from hp]
    dsimp only
    split
    · exact returns_onMem (procFreepagetable_returns hold₄.user hpoolo hsz)
    · exact returns_pure _

/-- **`mappages` of a page that is mapped already** panics. -/
theorem mappages_remap {va : Nat} {f : Frame} {perm : Perm} {e : Pte} (halign : va % pgSize = 0)
    (hva : va < maxVa) (he : m.lookup root va = some e) :
    mappages root va pgSize f perm m = .error (.panic .remap) := by
  obtain ⟨pt, hpt, hv, -⟩ := leaf_eq_some.mp ((lookup_eq_leaf m root va).symm.trans he)
  unfold mappages
  rw [if_neg (not_not.mpr halign), if_neg (by decide), if_neg (by decide),
    show pgSize / pgSize = 0 + 1 from rfl, mappagesLoop, bind_of_ok (walk_alloc_of_node hva hpt)]
  dsimp only
  rw [bind_of_ok (readPte_apply _ _ _), if_pos hv]
  rfl

/-- **`mappages` beyond the address space** panics in `walk`. -/
theorem mappages_beyond {va : Nat} {f : Frame} {perm : Perm} (halign : va % pgSize = 0)
    (hva : maxVa ≤ va) : mappages root va pgSize f perm m = .error (.panic .walk) := by
  unfold mappages
  rw [if_neg (not_not.mpr halign), if_neg (by decide), if_neg (by decide),
    show pgSize / pgSize = 0 + 1 from rfl, mappagesLoop]
  refine bind_eq_error.mpr (Or.inl ?_)
  unfold walk
  rw [if_pos hva]
  rfl

/-- **The part of `exec` after the headers** panics when the stack page gets a frame and is not
below the trap frame. -/
theorem execStack_panics {new f : Frame} {ownn : Set Frame} {m₁ : Mem} {segs entry : Nat}
    (hnew : UserSpace t.mem new tf ownn) (hk : kalloc t.mem = .ok (some f, m₁))
    (hbase : trapframeVa ≤ execStackbase (execSize segs)) :
    ∃ p, (p = .walk ∨ p = .remap) ∧
      execStack fs new (execSize segs) entry argv t = .error (.panic p) := by
  obtain ⟨hal, -⟩ := execStackbase_spec segs
  obtain ⟨base, hb⟩ : ∃ base, base = execStackbase (execSize segs) := ⟨_, rfl⟩
  rw [← hb] at hal hbase
  have hholds : Holds t.mem new tf ownn f m₁ := by
    rcases hnew.kalloc_holds hk with ⟨hc, -⟩ | ⟨f', hf', hholds⟩
    · cases hc
    · cases hf'
      exact hholds
  have hholds₂ := hholds.setPage (PhysPage.fill 0)
  -- the stack page is the trap frame, the trampoline, or beyond
  have hmap : ∃ p, (p = .walk ∨ p = .remap) ∧ mappages new base pgSize f
      { r := true, w := true, u := true } (m₁.setPage f (PhysPage.fill 0)) = .error (.panic p) := by
    by_cases hhigh : maxVa ≤ base
    · exact ⟨.walk, Or.inl rfl, mappages_beyond hal hhigh⟩
    have hcase : base = trapframeVa ∨ base = trampolineVa := by
      simp only [trapframeVa, trampolineVa, maxVa, pgSize] at *
      omega
    have hlook := hholds₂.lookup hnew base
    rcases hcase with hc | hc
    · rw [hc, hnew.trapframe] at hlook
      exact ⟨.remap, Or.inr rfl, mappages_remap hal (Nat.not_le.mp hhigh) (hc ▸ hlook)⟩
    · rw [hc, hnew.trampoline] at hlook
      exact ⟨.remap, Or.inr rfl, mappages_remap hal (Nat.not_le.mp hhigh) (hc ▸ hlook)⟩
  obtain ⟨p, hp, hmap⟩ := hmap
  refine ⟨p, hp, ?_⟩
  unfold execStack
  rw [← hb, pgRoundDown_of_aligned hal, bind_of_ok (onMem_eq_ok.mpr ⟨m₁, hk, rfl⟩)]
  dsimp only
  rw [bind_of_ok (onMem_eq_ok.mpr ⟨_, rfl, rfl⟩)]
  exact bind_eq_error.mpr (Or.inl (zoom_eq_error.mpr hmap))

/-! ## The image -/

/-- `exec` once the page table is there: the headers, and the stack page. -/
def execHeaders (fs : Fs) (ip : Nat) (argv : List (List UInt8)) (hdr : ElfHdr) (pagetable : Frame) :
    TM Int := do
  setProc fun p => { p with lazyNseg := 0, pfSeq := 0 }
  match ← recordSegs fs ip hdr.phnum hdr.phoff 0 with
  | none => execBad pagetable
  | some segEnd => execStack fs pagetable (execSize segEnd) hdr.entry argv

/-- A file that is not an executable. -/
theorem execImage_noElf {x : Nat × (Nat → UInt8)} (hread : readi fs ip 0 elfHdrSize = .ok x)
    (helf : elfHdrOf (fs.content ip) = none) : execImage fs ip argv t = .ok (-1, t) := by
  obtain ⟨len, bytes⟩ := x
  unfold execImage
  rw [bind_of_ok (liftFs_eq_ok.mpr ⟨hread, rfl⟩)]
  obtain ⟨rfl, rfl⟩ := Prod.mk.inj (readi_eq_ok hread)
  have hbytes : (fun k => (fs.content ip).data (u32 0 + k)) = (fs.content ip).data := by
    funext k
    rw [show u32 0 = 0 from rfl, Nat.zero_add]
  dsimp only
  rw [hbytes, show u32 0 = 0 from rfl, show u32 elfHdrSize = elfHdrSize from rfl]
  split
  · rfl
  next hlen =>
  split
  · rfl
  next hmagic =>
  unfold elfHdrOf at helf
  rw [if_pos ⟨not_not.mp hlen, not_not.mp hmagic⟩] at helf
  cases helf

/-- An executable: the page table, and the rest. -/
theorem execImage_of_elf (argv : List (List UInt8)) {x : Nat × (Nat → UInt8)} {hdr : ElfHdr}
    (hread : readi fs ip 0 elfHdrSize = .ok x) (helf : elfHdrOf (fs.content ip) = some hdr)
    (htf : t.p.trapframe = some tf) {o : Option Frame} {m₁ : Mem}
    (htable : procPagetable tf t.mem = .ok (o, m₁)) :
    execImage fs ip argv t =
      (o.elim (pure (-1)) (execHeaders fs ip argv hdr) : TM Int) ⟨m₁, t.p⟩ := by
  obtain ⟨len, bytes⟩ := x
  unfold elfHdrOf at helf
  split at helf
  · next hok =>
    obtain rfl := Option.some.inj helf
    unfold execImage
    rw [bind_of_ok (liftFs_eq_ok.mpr ⟨hread, rfl⟩)]
    obtain ⟨rfl, rfl⟩ := Prod.mk.inj (readi_eq_ok hread)
    have hbytes : (fun k => (fs.content ip).data (u32 0 + k)) = (fs.content ip).data := by
      funext k
      rw [show u32 0 = 0 from rfl, Nat.zero_add]
    dsimp only
    rw [hbytes, show u32 0 = 0 from rfl, show u32 elfHdrSize = elfHdrSize from rfl,
      if_neg (not_not.mpr hok.1), if_neg (not_not.mpr hok.2), bind_of_ok (get_apply _), htf,
      Option.getD_some, bind_of_ok (onMem_eq_ok.mpr ⟨m₁, htable, rfl⟩)]
    cases o with
    | none => rfl
    | some new => rfl
  · cases helf

/-- **The ways of `exec` through the headers**: the file system does not deliver them, it fails, or
it gets to the stack page with the headers `l` recorded. -/
theorem execImage_view (htask : TaskOk t root tf own) (hpool : Pool t.mem own)
    (argv : List (List UInt8)) :
    (∃ e, execImage fs ip argv t = .error e ∧ e.FromFs ∧ ¬ HeadersRead fs ip) ∨
    (∃ t', execImage fs ip argv t = .ok (-1, t')) ∨
    ∃ hdr l new m₁, HeadersRead fs ip ∧ elfHdrOf (fs.content ip) = some hdr ∧
      scanHdrs (fs.content ip) hdr.phnum hdr.phoff 0 = (l, true) ∧
      procPagetable tf t.mem = .ok (some new, m₁) ∧
      execImage fs ip argv t =
        execStack fs new (execSize (segEnd l 0)) hdr.entry argv ⟨m₁, execProc t.p ip l⟩ := by
  cases hread : readi fs ip 0 elfHdrSize with
  | error e =>
    refine Or.inl ⟨e, ?_, readi_error hread, fun hc => ?_⟩
    · exact bind_eq_error.mpr (Or.inl (liftFs_eq_error.mpr hread))
    · obtain ⟨x, hx⟩ := hc.elf
      rw [hread] at hx
      cases hx
  | ok x =>
    cases helf : elfHdrOf (fs.content ip) with
    | none => exact Or.inr (Or.inl ⟨t, execImage_noElf hread helf⟩)
    | some hdr =>
      have hshared := fun a ha => htask.space.not_free (a := a) ha
      obtain ⟨o, m₁, htable⟩ := procPagetable_returns htask.space.space.owned.nodup
        (fun hc => (hshared _ hc).1 rfl) (fun hc => (hshared _ hc).2.1 rfl) htask.space.tramp_ne
        (hpool.mono (Set.empty_subset own))
      -- Behind the headers stands one equation, and each case below rewrites it a step further.
      have heq := execImage_of_elf argv hread helf htask.trapframe htable
      rcases procPagetable_spec htask.space.space.owned.nodup (fun hc => (hshared _ hc).1 rfl)
          (fun hc => (hshared _ hc).2.1 rfl) htask.space.tramp_ne htable with
        ⟨rfl, -⟩ | ⟨new, ownn, rfl, hnew, hacts, -, -⟩
      · exact Or.inr (Or.inl ⟨_, heq⟩)
      rw [Option.elim_some, execHeaders] at heq
      rw [bind_of_ok (setProc_apply _ _)] at heq
      obtain ⟨herr, hret, hreads⟩ := recordSegs_outcome fs ip hdr.phnum hdr.phoff 0
        ⟨m₁, { t.p with lazyNseg := 0, pfSeq := 0 }⟩
      cases hrec : recordSegs fs ip hdr.phnum hdr.phoff 0
          ⟨m₁, { t.p with lazyNseg := 0, pfSeq := 0 }⟩ with
      | error e =>
        refine Or.inl ⟨e, ?_, herr e hrec, fun hc => ?_⟩
        · rw [heq]
          exact bind_eq_error.mpr (Or.inl hrec)
        · obtain ⟨_, _, hok⟩ := hret (hc.prog hdr helf)
          rw [hrec] at hok
          cases hok
      | ok y =>
        obtain ⟨ro, t₃⟩ := y
        cases hscan : scanHdrs (fs.content ip) hdr.phnum hdr.phoff 0 with
        | mk l through =>
          obtain ⟨rfl, rfl⟩ := recordSegs_spec _ hrec hscan
          rw [bind_of_ok hrec] at heq
          cases through with
          -- A segment that is refused: what was built is taken down, and `exec` returns -1.
          | false =>
            obtain ⟨r, t', hbad⟩ := execBad_returns (t := ⟨m₁, _⟩) hnew
              (Pool.acts (hpool.mono (Set.empty_subset own)) hacts)
            obtain ⟨rfl, -⟩ := execBad_spec (t := ⟨m₁, _⟩) hnew hbad
            exact Or.inr (Or.inl ⟨t', heq.trans hbad⟩)
          | true =>
            refine Or.inr (Or.inr ⟨hdr, l, new, m₁, ⟨⟨x, hread⟩, fun hdr' h' => ?_⟩, rfl, hscan,
              htable, heq⟩)
            obtain rfl := Option.some.inj (helf.symm.trans h')
            exact hreads _ _ hrec

/-- With the headers delivered and recorded, `exec` gets to the stack page. -/
theorem execImage_of_scan {hdr : ElfHdr} {l : List ProgHdr} {new : Frame} {m₁ : Mem}
    (argv : List (List UInt8)) (hread : HeadersRead fs ip)
    (helf : elfHdrOf (fs.content ip) = some hdr)
    (hscan : scanHdrs (fs.content ip) hdr.phnum hdr.phoff 0 = (l, true))
    (htf : t.p.trapframe = some tf) (htable : procPagetable tf t.mem = .ok (some new, m₁)) :
    execImage fs ip argv t =
      execStack fs new (execSize (segEnd l 0)) hdr.entry argv ⟨m₁, execProc t.p ip l⟩ := by
  obtain ⟨x, hx⟩ := hread.elf
  obtain ⟨-, hret, -⟩ := recordSegs_outcome fs ip hdr.phnum hdr.phoff 0
    ⟨m₁, { t.p with lazyNseg := 0, pfSeq := 0 }⟩
  obtain ⟨ro, t₃, hrec⟩ := hret (hread.prog hdr helf)
  obtain ⟨rfl, rfl⟩ := recordSegs_spec _ hrec hscan
  rw [execImage_of_elf argv hx helf htf htable, Option.elim_some, execHeaders,
    bind_of_ok (setProc_apply _ _), bind_of_ok hrec]
  rfl

/-! ## Looking up the path -/

/-- The halts of looking up a path: none of them is one of the memory functions. -/
def Halt.FromPath (e : Halt) : Prop := ¬ e.FromVm

theorem Halt.FromFs.fromPath {e : Halt} (h : e.FromFs) : e.FromPath := fun hc => by
  unfold Halt.FromFs at h
  unfold Halt.FromVm at hc
  split at h <;> simp_all

theorem raises_iget (inum : Nat) : Raises Halt.FromPath (iget inum) := by
  unfold iget
  refine raises_bind raises_get fun k => ?_
  split
  · exact raises_bind (raises_modify _) fun _ => raises_pure _
  split
  · exact raises_bind (raises_modify _) fun _ => raises_pure _
  · exact raises_halt id

theorem raises_iput (ip : Nat) : Raises Halt.FromPath (iput ip) := by
  unfold iput
  refine raises_bind raises_get fun k => ?_
  dsimp only
  split
  · exact raises_bind (raises_modify _) fun _ => raises_bind (raises_modify _) fun _ =>
      raises_modify _
  · exact raises_modify _

theorem raises_ilockInode (i ip : Nat) : Raises Halt.FromPath (ilockInode i ip) := by
  unfold ilockInode
  refine raises_bind raises_get fun k => ?_
  split
  next e he => exact raises_halt (ilock_error he).fromPath
  · exact raises_modify _

theorem raises_iunlock (i ip : Nat) : Raises Halt.FromPath (iunlock i ip) := by
  unfold iunlock
  refine raises_bind raises_get fun k => ?_
  split
  · exact raises_halt id
  · exact raises_modify _

theorem raises_dirlookup (dp : Nat) (name : Name) : Raises Halt.FromPath (dirlookup dp name) := by
  unfold dirlookup
  refine raises_bind raises_get fun k => ?_
  split
  · exact raises_halt id
  split
  · exact raises_pure _
  · exact raises_bind (raises_iget _) fun _ => raises_pure _

theorem raises_namexLoop (i : Nat) : ∀ names ip, Raises Halt.FromPath (namexLoop i names ip) := by
  intro names
  induction names with
  | nil => exact fun ip => raises_pure _
  | cons name rest ih =>
    intro ip
    have hleave : ∀ x : K (Option Nat), Raises Halt.FromPath x →
        Raises Halt.FromPath (do iunlock i ip; iput ip; x) := fun x hx =>
      raises_bind (raises_iunlock i ip) fun _ => raises_bind (raises_iput ip) fun _ => hx
    rw [namexLoop]
    refine raises_bind (raises_ilockInode i ip) fun _ => raises_bind raises_get fun k => ?_
    split
    · exact hleave _ (raises_pure _)
    refine raises_bind (raises_dirlookup ip name) fun o => ?_
    cases o with
    | none => exact hleave _ (raises_pure _)
    | some next => exact hleave _ (ih next)

theorem raises_namei (i : Nat) (path : List UInt8) : Raises Halt.FromPath (namei i path) := by
  unfold namei
  split
  · exact raises_bind (raises_iget _) fun ip => raises_namexLoop i _ ip
  refine raises_bind (fun s e h => by cases h) fun p => ?_
  split
  · exact raises_halt id
  · exact raises_bind (raises_modify _) fun _ => raises_namexLoop i _ _

/-! ## The arithmetic of the size -/

theorem segEnd_lt (l : List ProgHdr) : segEnd l 0 < 2 ^ 64 :=
  Nat.lt_of_le_pred (by decide) (segEnd_le (fun _ _ => Nat.le_pred_of_lt (Nat.mod_lt _ (by decide)))
    0 (Nat.zero_le _))

theorem le_lt (data : Nat → UInt8) (off : Nat) : ∀ n, le data off n < 256 ^ n := by
  have hfold : ∀ l : List Nat,
      l.foldr (fun k acc => (data (off + k)).toNat + 256 * acc) 0 < 256 ^ l.length := by
    intro l
    induction l with
    | nil => exact Nat.one_pos
    | cons k l ih =>
      have hbyte := (data (off + k)).toNat_lt
      rw [List.foldr_cons, List.length_cons, pow_succ]
      omega
  intro n
  have := hfold (List.range n)
  rwa [List.length_range] at this

/-- The check of `exec` on `vaddr + memsz` is exact. -/
theorem segment_end_exact (d : Dinode) (n off count : Nat) {ph : ProgHdr}
    (h : ph ∈ (scanHdrs d n off count).1) : u64 (ph.vaddr + ph.memsz) = ph.vaddr + ph.memsz := by
  obtain ⟨hload, bytes, rfl⟩ := of_mem_scanHdrs d n off count ph h
  have hvaddr : (ProgHdr.ofBytes bytes).vaddr < 256 ^ 8 := le_lt bytes 16 8
  have hmemsz : (ProgHdr.ofBytes bytes).memsz < 256 ^ 8 := le_lt bytes 40 8
  unfold ProgHdr.loadable at hload
  simp only [Bool.and_eq_true, decide_eq_true_eq] at hload
  obtain ⟨⟨-, hwrap⟩, -⟩ := hload
  unfold u64 at hwrap ⊢
  omega

/-- The image of the headers `l` ends at the trap frame or below, in exact integers. -/
def ImageFits (l : List ProgHdr) : Prop := pageCeil (segEnd l 0) + 2 * pgSize ≤ trapframeVa

/-- The segments end so high that the size of the image wraps. -/
def SizeWraps (l : List ProgHdr) : Prop := 2 ^ 64 - 2 * pgSize < segEnd l 0

theorem ImageFits.stackBase {l : List ProgHdr} (h : ImageFits l) :
    stackBase l = pageCeil (segEnd l 0) + pgSize := by
  unfold ImageFits pageCeil at h
  unfold Xv6.stackBase execStackbase execSize pgRoundUp u64 pageCeil
  simp only [trapframeVa, trampolineVa, maxVa, pgSize] at *
  omega

theorem SizeWraps.stackBase {l : List ProgHdr} (h : SizeWraps l) : stackBase l < 2 * pgSize := by
  have hlt := segEnd_lt l
  unfold SizeWraps at h
  unfold Xv6.stackBase execStackbase execSize pgRoundUp u64
  simp only [pgSize] at *
  omega

/-- Between the two the stack page is at the trap frame or above. -/
theorem stackBase_high {l : List ProgHdr} (hf : ¬ ImageFits l) (hw : ¬ SizeWraps l) :
    trapframeVa ≤ stackBase l := by
  have hlt := segEnd_lt l
  unfold ImageFits pageCeil at hf
  unfold SizeWraps at hw
  unfold stackBase execStackbase execSize pgRoundUp u64
  simp only [trapframeVa, trampolineVa, maxVa, pgSize] at *
  omega

theorem length_ustack {stackbase : Nat} :
    ∀ (argv : List (List UInt8)) {sp : Nat} {ustack : List Nat} {b : Nat → UInt8}
      {x : Nat × List Nat × (Nat → UInt8)}, stackArgs stackbase argv sp ustack b = some x →
      x.2.1.length = ustack.length + argv.length := by
  intro argv
  induction argv with
  | nil =>
    intro sp ustack b x hx
    cases hx
    rfl
  | cons s rest ih =>
    intro sp ustack b x hx
    rw [stackArgs] at hx
    split at hx
    · cases hx
    cases hfit : pushFit stackbase sp ((cstr s).length + 1) with
    | none =>
      rw [hfit] at hx
      cases hx
    | some sp' =>
      rw [hfit] at hx
      rw [ih hx, List.length_append, List.length_singleton, List.length_cons]
      omega

/-- The arguments that are pushed are counted. -/
theorem argc_of_stackImage {stackbase sz sp argc : Nat} {b : Nat → UInt8}
    (h : stackImage stackbase sz argv = some (sp, argc, b)) : argc = argv.length := by
  unfold stackImage at h
  split at h
  · cases h
  next sp₁ ustack b₁ hargs =>
  split at h
  · cases h
  · cases h
    have := length_ustack argv hargs
    rwa [List.length_nil, Nat.zero_add] at this

/-! ## `exec` -/

variable {path : List UInt8} {k₁ : Kernel}

/-- **`exec` returns** when the image is built or given up, since it holds the lock of the
executable. -/
theorem exec_returns {r : Int} (hargv : ArgvOk argv) (htask : TaskOk (k.task i) root tf own)
    (hopen : Opened k i path ip k₁) (himage : execImage k₁.fs ip argv (k.task i) = .ok (r, t')) :
    Returns (exec i path argv) k := by
  obtain ⟨k₀, hname, hlock⟩ := hopen.found
  have htask₁ : k₁.task i = k.task i := by rw [Kernel.task, hopen.mem, hopen.procs]; rfl
  have hpid : t'.p.pid = (k.procs i).pid := by
    cases execImage_spec hargv htask himage <;> rfl
  -- the lock that `ilock` took
  have hlocked : (k₁.fs.itable ip).lockedBy = some (k₁.procs i).pid ∧
    1 ≤ (k₁.fs.itable ip).ref := by
    unfold ilockInode at hlock
    rw [bind_of_ok (get_apply _)] at hlock
    cases hil : ilock k₀.fs (some ip) with
    | error e =>
      rw [hil] at hlock
      cases hlock
    | ok u =>
      rw [hil] at hlock
      cases hlock
      refine ⟨?_, ?_⟩
      · simp [Function.update_self]
      · simp only [Function.update_self]
        simp only [ilock] at hil
        split at hil
        · cases hil
        next href => exact Int.not_lt.mp href
  have hunlock : ∀ s : Kernel, (s.fs.itable ip).lockedBy = some (k₁.procs i).pid →
      1 ≤ (s.fs.itable ip).ref → (s.procs i).pid = (k₁.procs i).pid → Returns (iunlock i ip) s := by
    intro s hl hr hp
    unfold iunlock
    refine returns_bind_of_ok (get_apply _) ?_
    rw [if_neg (by rw [hl, hp]; simp only [ne_eq, not_true_eq_false, false_or]; omega)]
    exact returns_modify _
  have hpid₁ : ((k₁.setTask i t').procs i).pid = (k₁.procs i).pid := by
    rw [hopen.procs, ← hpid]
    simp [Kernel.setTask]
  unfold exec
  refine returns_bind_of_ok hname (returns_bind_of_ok hlock ?_)
  refine returns_bind_of_ok (onTask_eq_ok.mpr ⟨t', by rw [htask₁]; exact himage, rfl⟩) ?_
  split
  · refine returns_bind_of_ok rfl (returns_bind (hunlock _ ?_ ?_ hpid₁) fun _ _ _ => returns_pure _)
    · simpa [Kernel.setTask, Function.update_self] using hlocked.1
    · have := hlocked.2
      simp only [Kernel.setTask, Function.update_self]
      omega
  · exact returns_bind (hunlock _ hlocked.1 hlocked.2 hpid₁) fun _ _ _ => returns_pure _

theorem onTask_eq_error {α : Type} {x : Fs → TM α} {e : Halt} :
    onTask i x k = .error e ↔ x k.fs (k.task i) = .error e := zoom_eq_error

/-- `exec` halts in the lookup of the path, or in building the image. -/
theorem exec_error {e : Halt} (hrun : exec i path argv k = .error e) :
    e.FromPath ∨ ∃ ip k₁, Opened k i path ip k₁ ∧
    execImage k₁.fs ip argv (k.task i) = .error e := by
  unfold exec at hrun
  rcases bind_eq_error.mp hrun with hname | ⟨o, k₀, hname, hrun⟩
  · exact Or.inl (raises_namei i path k e hname)
  cases o with
  | none => cases hrun
  | some ip =>
    rcases bind_eq_error.mp hrun with hlock | ⟨_, k₁, hlock, hrun⟩
    · exact Or.inl (raises_ilockInode i ip _ e hlock)
    have hfs := (fsOnly_namei i path _ _ _ hname).trans (fsOnly_ilockInode i ip _ _ _ hlock)
    rcases bind_eq_error.mp hrun with himage | ⟨r, k₂, -, hrun⟩
    · refine Or.inr ⟨ip, k₁, ⟨hfs.mem, hfs.procs, k₀, hname, hlock⟩, ?_⟩
      have htask₁ : k₁.task i = k.task i := by rw [Kernel.task, hfs.mem, hfs.procs]; rfl
      rw [← htask₁]
      exact onTask_eq_error.mp himage
    have htail : Raises Halt.FromPath (do iunlock i ip; pure r : K Int) :=
      raises_bind (raises_iunlock i ip) fun _ => raises_pure _
    refine Or.inl ?_
    split at hrun
    · exact raises_bind (raises_modify _) (fun _ => htail) _ _ hrun
    · exact htail _ _ hrun

/-- There is memory for the page table of a new image, and a frame for its stack page. -/
def StackFree (m : Mem) (tf : Frame) : Prop :=
  ∃ new m₁ f m₂, procPagetable tf m = .ok (some new, m₁) ∧ kalloc m₁ = .ok (some f, m₂)

theorem StackMapped.stackFree {base : Nat} (h : StackMapped m tf base) : StackFree m tf := by
  obtain ⟨new, m₁, htable, f, m₂, -, hk, -⟩ := h
  exact ⟨new, m₁, f, m₂, htable, hk⟩

/-- **`exec` is safe**: no memory function panics, and once the headers are delivered it returns; it
returns -1 or the number of arguments, and on success the size covers every recorded segment and two
more pages, below the trap frame. -/
structure ExecSafe (k : Kernel) (i : Nat) (path : List UInt8) (argv : List (List UInt8)) :
    Prop where
  noPanic : ∀ e, exec i path argv k = .error e → ¬ e.FromVm
  returns : ∀ ip k₁, Opened k i path ip k₁ → HeadersRead k₁.fs ip →
    ∃ r k', exec i path argv k = .ok (r, k')
  result : ∀ r k', exec i path argv k = .ok (r, k') → r = -1 ∨ r = argv.length
  size : ∀ r k', exec i path argv k = .ok (r, k') → 0 ≤ r →
    (k'.procs i).sz ≤ trapframeVa ∧ ∀ j : Fin 16, j.val < (k'.procs i).lazyNseg →
      ((k'.procs i).lazySegs j).vaddr + ((k'.procs i).lazySegs j).memsz + 2 * pgSize ≤
      (k'.procs i).sz

/-- **The condition on the file**: when its headers are accepted and the stack page gets a frame,
the segments, the guard page and the stack page end at the trap frame or below; or the size wraps,
and there is no memory for the page-table pages of the stack or no room for the arguments. -/
def ExecInRange (k : Kernel) (i : Nat) (path : List UInt8) (argv : List (List UInt8)) : Prop :=
  ∀ ip k₁ hdr l tf, Opened k i path ip k₁ → HeadersRead k₁.fs ip →
    elfHdrOf (k₁.fs.content ip) = some hdr →
    scanHdrs (k₁.fs.content ip) hdr.phnum hdr.phoff 0 = (l, true) →
    (k.procs i).trapframe = some tf → StackFree k.mem tf →
    ImageFits l ∨ SizeWraps l ∧ (¬ StackMapped k.mem tf (stackBase l) ∨
      stackImage (stackBase l) (stackBase l + pgSize) argv = none)

/-- The image is built or given up when the stack page, if it gets a frame, is below the trap
frame. -/
theorem execImage_returns (hargv : ArgvOk argv) (htask : TaskOk t root tf own)
    (hpool : Pool t.mem own)
    (hrange : ∀ hdr l, HeadersRead fs ip → elfHdrOf (fs.content ip) = some hdr →
      scanHdrs (fs.content ip) hdr.phnum hdr.phoff 0 = (l, true) → StackFree t.mem tf →
      stackBase l < trapframeVa) :
    (∃ e, execImage fs ip argv t = .error e ∧ e.FromFs ∧ ¬ HeadersRead fs ip) ∨
      ∃ r t', execImage fs ip argv t = .ok (r, t') := by
  rcases execImage_view htask hpool argv with herr | ⟨t', hbad⟩ |
    ⟨hdr, l, new, m₁, hread, helf, hscan, htable, heq⟩
  · exact Or.inl herr
  · exact Or.inr ⟨-1, t', hbad⟩
  have hshared := fun a ha => htask.space.not_free (a := a) ha
  rcases procPagetable_spec htask.space.space.owned.nodup (fun hc => (hshared _ hc).1 rfl)
      (fun hc => (hshared _ hc).2.1 rfl) htask.space.tramp_ne htable with
    ⟨hc, -⟩ | ⟨new', ownn, hnew', hnew, hacts, -, hnone⟩
  · cases hc
  cases hnew'
  have hold : Apart m₁ root tf own ownn :=
    Apart.acts ⟨htask.space, fun _ _ => Set.notMem_empty _, Set.notMem_empty _,
      Set.notMem_empty _⟩ hacts
  refine Or.inr ?_
  rw [heq]
  refine execStack_returns (t := ⟨m₁, execProc t.p ip l⟩) hargv hold htask.pagetable
    htask.size hnew hnone (Pool.acts (hpool.mono (Set.empty_subset own)) hacts)
    (fun a ha => (hacts.allocatable a).mpr (hpool a (Or.inl ha))) fun f m₂ hk => ?_
  exact hrange hdr l hread helf hscan ⟨new, m₁, f, m₂, htable, hk⟩

theorem ExecInRange.stackBase_lt {hdr : ElfHdr} {l : List ProgHdr} (h : ExecInRange k i path argv)
    (hopen : Opened k i path ip k₁) (hread : HeadersRead k₁.fs ip)
    (helf : elfHdrOf (k₁.fs.content ip) = some hdr)
    (hscan : scanHdrs (k₁.fs.content ip) hdr.phnum hdr.phoff 0 = (l, true))
    (htf : (k.procs i).trapframe = some tf) (hfree : StackFree k.mem tf) :
    stackBase l < trapframeVa := by
  rcases h ip k₁ hdr l tf hopen hread helf hscan htf hfree with hfits | ⟨hwraps, -⟩
  · rw [hfits.stackBase]
    unfold ImageFits at hfits
    simp only [pgSize] at *
    omega
  · exact hwraps.stackBase.trans (by decide)

/-- The image that `exec` builds on the open executable. -/
theorem exec_image {r : Int} (hopen : Opened k i path ip k₁)
    (hrun : exec i path argv k = .ok (r, k')) :
    ∃ t', execImage k₁.fs ip argv (k.task i) = .ok (r, t') := by
  obtain ⟨k₀, hname, hlock⟩ := hopen.found
  have htask₁ : k₁.task i = k.task i := by rw [Kernel.task, hopen.mem, hopen.procs]; rfl
  unfold exec at hrun
  rw [bind_of_ok hname] at hrun
  dsimp only at hrun
  rw [bind_of_ok hlock] at hrun
  obtain ⟨r', k₂, hon, hrun⟩ := bind_eq_ok.mp hrun
  obtain ⟨t', himage, -⟩ := onTask_eq_ok.mp hon
  rw [htask₁] at himage
  refine ⟨t', ?_⟩
  split at hrun
  · obtain ⟨_, k₃, -, hrun⟩ := bind_eq_ok.mp hrun
    obtain ⟨_, k₄, -, hrun⟩ := bind_eq_ok.mp hrun
    obtain ⟨rfl, -⟩ := pure_eq_ok.mp hrun
    exact himage
  · obtain ⟨_, k₄, -, hrun⟩ := bind_eq_ok.mp hrun
    obtain ⟨rfl, -⟩ := pure_eq_ok.mp hrun
    exact himage

/-- **A successful `exec`**: the headers were delivered, the stack page is mapped with the arguments
on it, and the image is fresh. -/
structure ExecDone (k : Kernel) (i : Nat) (path : List UInt8) (argv : List (List UInt8)) (r : Int)
    (k' : Kernel) (ip : Nat) (k₁ : Kernel) (hdr : ElfHdr) (l : List ProgHdr) (tf : Frame) :
    Prop where
  opened : Opened k i path ip k₁
  read : HeadersRead k₁.fs ip
  elf : elfHdrOf (k₁.fs.content ip) = some hdr
  scan : scanHdrs (k₁.fs.content ip) hdr.phnum hdr.phoff 0 = (l, true)
  trapframe : (k.procs i).trapframe = some tf
  mapped : StackMapped k.mem tf (stackBase l)
  argc : r = argv.length
  room : stackImage (stackBase l) (stackBase l + pgSize) argv ≠ none
  fresh : ∃ b root, FreshImage ip l b (k'.task i) root

theorem exec_done (h : SmallReachable k) (hr : (k.procs i).state = .runnable) (hargv : ArgvOk argv)
    {r : Int} (hrun : exec i path argv k = .ok (r, k')) (hok : 0 ≤ r) :
    ∃ ip k₁ hdr l tf, ExecDone k i path argv r k' ip k₁ hdr l tf := by
  obtain ⟨-, ip, l, b, root, k₁, hdr, sp, argc, hopen, helf, hscan, himg, hfresh⟩ :=
    exec_fresh h hr hargv hrun hok
  obtain ⟨⟨own, hinv⟩, -⟩ := tablesOk_reachable h
  obtain ⟨root₀, tf, o, -, ho, -, htask⟩ := hinv.runnable hr
  have hpool : Pool k.mem o := (hinv.pool i).mono (ho ▸ Set.subset_insert tf o)
  obtain ⟨t', himage⟩ := exec_image hopen hrun
  have hread : HeadersRead k₁.fs ip := by
    rcases execImage_view htask hpool argv with ⟨e, herr, -⟩ | ⟨t₁, hbad⟩ | ⟨_, _, _, _, hread, -⟩
    · rw [himage] at herr
      cases herr
    · rw [himage] at hbad
      cases hbad
      exact absurd hok (by decide)
    · exact hread
  have hmapped : StackMapped k.mem tf (stackBase l) := by
    cases execImage_spec hargv htask himage with
    | noElf | noTable | bad | noRoom => exact absurd hok (by decide)
    | done elf scan base image space disjoint acts stack empty fresh mapped =>
      obtain rfl := Option.some.inj (helf.symm.trans elf)
      obtain ⟨rfl, -⟩ := Prod.mk.inj (hscan.symm.trans scan)
      exact mapped
  have hargc : r = argv.length := by
    cases execImage_spec hargv htask himage with
    | noElf | noTable | bad | noRoom => exact absurd hok (by decide)
    | done elf scan base image => exact congrArg Int.ofNat (argc_of_stackImage image)
  refine ⟨ip, k₁, hdr, l, tf, hopen, hread, helf, hscan, htask.trapframe, hmapped, hargc, ?_,
    b, root, hfresh⟩
  rw [himg]
  exact Option.some_ne_none _

section Done

variable {r : Int} {hdr : ElfHdr} {l : List ProgHdr}

theorem ExecDone.exact (h : ExecDone k i path argv r k' ip k₁ hdr l tf) {ph : ProgHdr}
    (hph : ph ∈ l) : u64 (ph.vaddr + ph.memsz) = ph.vaddr + ph.memsz :=
  segment_end_exact (k₁.fs.content ip) hdr.phnum hdr.phoff 0 (by rw [h.scan]; exact hph)

/-- The size after a successful `exec`, and what it covers. -/
theorem ExecDone.covers (h : ExecDone k i path argv r k' ip k₁ hdr l tf) :
    (k'.procs i).sz = stackBase l + pgSize ∧ ∀ b : Nat,
      (∀ j : Fin 16, j.val < (k'.procs i).lazyNseg →
        ((k'.procs i).lazySegs j).vaddr + ((k'.procs i).lazySegs j).memsz + 2 * pgSize ≤ b) ↔
      ∀ ph ∈ l, ph.vaddr + ph.memsz + 2 * pgSize ≤ b := by
  obtain ⟨bytes, root, hfresh⟩ := h.fresh
  exact ⟨hfresh.sz.1, fun b => hfresh.mem_segs (P := fun s => s.vaddr + s.memsz + 2 * pgSize ≤ b)⟩

/-- An image that fits covers its segments. -/
theorem ExecDone.size_of_fits (h : ExecDone k i path argv r k' ip k₁ hdr l tf)
    (hfits : ImageFits l) :
    (k'.procs i).sz ≤ trapframeVa ∧ ∀ j : Fin 16, j.val < (k'.procs i).lazyNseg →
      ((k'.procs i).lazySegs j).vaddr + ((k'.procs i).lazySegs j).memsz + 2 * pgSize ≤
        (k'.procs i).sz := by
  obtain ⟨hsz, hcovers⟩ := h.covers
  have hbase := hfits.stackBase
  refine ⟨?_, (hcovers _).mpr fun ph hph => ?_⟩
  · unfold ImageFits at hfits
    rw [hsz, hbase]
    simp only [pgSize] at *
    omega
  · have hle := (segEnd_eq_max l 0).2 ph hph
    rw [h.exact hph] at hle
    rw [hsz, hbase]
    unfold pageCeil
    simp only [pgSize] at *
    omega

/-- An image whose size wraps does not. -/
theorem ExecDone.not_wraps (h : ExecDone k i path argv r k' ip k₁ hdr l tf)
    (hsz : (k'.procs i).sz ≤ trapframeVa)
    (hsize : ∀ j : Fin 16, j.val < (k'.procs i).lazyNseg →
      ((k'.procs i).lazySegs j).vaddr + ((k'.procs i).lazySegs j).memsz + 2 * pgSize ≤
      (k'.procs i).sz) :
    ¬ SizeWraps l := by
  have hall := (h.covers.2 _).mp hsize
  refine Nat.not_lt.mpr (segEnd_le (fun ph hph => ?_) 0 (Nat.zero_le _))
  rw [h.exact hph]
  have := (hall ph hph).trans hsz
  simp only [trapframeVa, trampolineVa, maxVa, pgSize] at *
  omega

end Done

/-- A safe `exec` is in range: otherwise the stack page makes it panic, or the size wraps. -/
theorem ExecSafe.inRange (h : SmallReachable k) (hr : (k.procs i).state = .runnable)
    (hargv : ArgvOk argv) : ExecSafe k i path argv → ExecInRange k i path argv := by
  obtain ⟨⟨own, hinv⟩, -⟩ := tablesOk_reachable h
  obtain ⟨root, tf, o, -, -, -, htask⟩ := hinv.runnable hr
  intro hsafe ip k₁ hdr l tf' hopen hread helf hscan htf hfree
  obtain rfl := Option.some.inj (htask.trapframe.symm.trans htf)
  by_cases hfits : ImageFits l
  · exact Or.inl hfits
  obtain ⟨r, k', hrun⟩ := hsafe.returns ip k₁ hopen hread
  by_cases hwraps : SizeWraps l
  · -- the size wraps: the `exec` that returns does not succeed
    refine Or.inr ⟨hwraps, or_iff_not_imp_left.mpr fun hmapped => ?_⟩
    obtain ⟨t', himage⟩ := exec_image hopen hrun
    cases execImage_spec hargv htask himage with
    | noElf bad =>
      rw [helf] at bad
      cases bad
    | noTable elf table =>
      obtain ⟨new, m₁, _, _, htable, -⟩ := hfree
      cases htable.symm.trans table
    | bad elf scan table acts why =>
      obtain rfl := Option.some.inj (helf.symm.trans elf)
      obtain ⟨rfl, rfl⟩ := Prod.mk.inj (hscan.symm.trans scan)
      exact absurd (not_not.mp hmapped) (why rfl)
    | noRoom elf scan base room =>
      obtain rfl := Option.some.inj (helf.symm.trans elf)
      obtain ⟨rfl, -⟩ := Prod.mk.inj (hscan.symm.trans scan)
      exact room
    | done =>
      obtain ⟨ip', k₁', hdr', l', tf', hdone⟩ := exec_done h hr hargv hrun (Int.natCast_nonneg _)
      obtain ⟨rfl, rfl⟩ := hopen.unique hdone.opened
      obtain rfl := Option.some.inj (helf.symm.trans hdone.elf)
      obtain ⟨rfl, -⟩ := Prod.mk.inj (hscan.symm.trans hdone.scan)
      obtain ⟨hsz, hsize⟩ := hsafe.size _ _ hrun (Int.natCast_nonneg _)
      exact absurd hwraps (hdone.not_wraps hsz hsize)
  · -- the stack page is at the trap frame or above: `mappages` panics
    obtain ⟨t', himage⟩ := exec_image hopen hrun
    obtain ⟨new, m₁, f, m₂, htable, hk⟩ := hfree
    rw [execImage_of_scan argv hread helf hscan htask.trapframe htable] at himage
    have hshared := fun a ha => htask.space.not_free (a := a) ha
    rcases procPagetable_spec htask.space.space.owned.nodup (fun hc => (hshared _ hc).1 rfl)
        (fun hc => (hshared _ hc).2.1 rfl) htask.space.tramp_ne htable with
      ⟨hc, -⟩ | ⟨new', ownn, hnew', hnew, -⟩
    · cases hc
    cases hnew'
    obtain ⟨p, -, hpanic⟩ := execStack_panics (t := ⟨m₁, execProc (k.procs i) ip l⟩) hnew hk
      (stackBase_high hfits hwraps)
    cases himage.symm.trans hpanic

/-- An `exec` in range is safe. -/
theorem ExecInRange.safe (h : SmallReachable k) (hr : (k.procs i).state = .runnable)
    (hargv : ArgvOk argv) : ExecInRange k i path argv → ExecSafe k i path argv := by
  obtain ⟨⟨own, hinv⟩, -⟩ := tablesOk_reachable h
  obtain ⟨root, tf, o, -, ho, -, htask⟩ := hinv.runnable hr
  have hpool : Pool k.mem o := (hinv.pool i).mono (ho ▸ Set.subset_insert tf o)
  intro hrange
  have hreturns : ∀ ip k₁, Opened k i path ip k₁ →
      (∃ e, execImage k₁.fs ip argv (k.task i) = .error e ∧ e.FromFs ∧ ¬ HeadersRead k₁.fs ip) ∨
        ∃ r t', execImage k₁.fs ip argv (k.task i) = .ok (r, t') := fun ip k₁ hopen =>
    execImage_returns hargv htask hpool fun hdr l hread helf hscan hfree =>
      hrange.stackBase_lt hopen hread helf hscan htask.trapframe hfree
  refine ⟨fun e he => ?_, fun ip k₁ hopen hread => ?_, fun r k' hrun => ?_, fun r k' hrun hok => ?_⟩
  · rcases exec_error he with hpath | ⟨ip, k₁, hopen, himage⟩
    · exact hpath
    rcases hreturns ip k₁ hopen with ⟨e', herr, hfs, -⟩ | ⟨r, t', hok⟩
    · cases himage.symm.trans herr
      exact hfs.fromPath
    · cases himage.symm.trans hok
  · rcases hreturns ip k₁ hopen with ⟨e', -, -, hc⟩ | ⟨r, t', hok⟩
    · exact absurd hread hc
    · exact exec_returns hargv htask hopen hok
  · by_cases hok : 0 ≤ r
    · obtain ⟨_, _, _, _, _, hdone⟩ := exec_done h hr hargv hrun hok
      exact Or.inr hdone.argc
    · cases exec_spec hinv hr hargv hrun with
      | noFile => exact Or.inl rfl
      | image opened ho htf htask out closed =>
        cases out with
        | noElf | noTable | bad | noRoom => exact Or.inl rfl
        | done => exact absurd (Int.natCast_nonneg _) hok
  · obtain ⟨ip, k₁, hdr, l, tf', hdone⟩ := exec_done h hr hargv hrun hok
    rcases hrange ip k₁ hdr l tf' hdone.opened hdone.read hdone.elf hdone.scan hdone.trapframe
        hdone.mapped.stackFree with hfits | ⟨-, hno | hno⟩
    · exact hdone.size_of_fits hfits
    · exact absurd hdone.mapped hno
    · exact absurd hno hdone.room

/-- **`exec` is safe** exactly on the files of that condition. -/
theorem exec_safe_iff (h : SmallReachable k) (hr : (k.procs i).state = .runnable)
    (hargv : ArgvOk argv) : ExecSafe k i path argv ↔ ExecInRange k i path argv :=
  ⟨ExecSafe.inRange h hr hargv, ExecInRange.safe h hr hargv⟩

set_option maxRecDepth 100000 in
/-- A program of three pages is executed safely. -/
theorem exec_safe_small : ExecSafe afterExec 0 [47, 97] [[97]] := by
  have hrun : Halting.passes (namei 0 [47, 97] afterExec) (fun ip k₀ => ip.any fun ip =>
      Halting.passes (ilockInode 0 ip k₀) fun _ k₁ => (elfHdrOf (k₁.fs.content ip)).any fun hdr =>
        decide (pageCeil (segEnd (scanHdrs (k₁.fs.content ip) hdr.phnum hdr.phoff 0).1 0) +
          2 * pgSize ≤ trapframeVa)) = true := by decide +kernel
  apply (exec_safe_iff afterExec_reachable.small (by decide +kernel) argvOk_one).mpr
  intro ip k₁ hdr l tf hopen hread helf hscan htf hfree
  obtain ⟨k₀, hname, hlock⟩ := hopen.found
  simp only [Halting.passes, Option.any_some, hname, hlock, helf, hscan, decide_eq_true_eq] at hrun
  exact Or.inl hrun

/-- Three programs with one segment: at `MAXVA`, two pages below the trap frame, and at the end of
the 64-bit addresses. -/
def highPrograms : List (List UInt8) :=
  [elfFile [progHdrBytes 5 0 maxVa 0 0x1000],
    elfFile [progHdrBytes 5 0 (trapframeVa - 2 * pgSize) 0 0x1000],
    elfFile [progHdrBytes 5 0 (2 ^ 64 - 2 * pgSize) 0 0x1800]]

/-- The first process of a machine with these programs. -/
@[irreducible] def highStart : Kernel := stateAfter (machine 60 highPrograms) []

set_option maxRecDepth 100000 in
theorem highStart_reachable : Reachable highStart := by
  unfold highStart
  exact reachable_of_stateAfter (machine_boot (by decide) _) (by decide +kernel)

set_option maxRecDepth 100000 in
/-- **Three ways to go wrong**: the first program panics in `walk`, the second one in `mappages`,
and the third one gets a size of two pages, far below its segment. -/
theorem exec_walk_panic : SmallReachable highStart ∧ (highStart.procs 0).state = .runnable ∧
    exec 0 [47, 97] [[97]] highStart = .error (.panic .walk) ∧
    exec 0 [47, 98] [[97]] highStart = .error (.panic .remap) ∧
    (∃ k', exec 0 [47, 99] [[97]] highStart = .ok (1, k') ∧ (k'.procs 0).sz = 2 * pgSize ∧
      (k'.procs 0).lazyNseg = 1 ∧ ((k'.procs 0).lazySegs 0).vaddr = 2 ^ 64 - 2 * pgSize) ∧
    ∀ c : UInt8, c ∈ [97, 98, 99] → ¬ ExecSafe highStart 0 [47, c] [[97]] := by
  have hwalk : (match exec 0 [47, 97] [[97]] highStart with
      | .error e => decide (e = .panic .walk)
      | .ok _ => false) = true := by decide +kernel
  have hremap : (match exec 0 [47, 98] [[97]] highStart with
      | .error e => decide (e = .panic .remap)
      | .ok _ => false) = true := by decide +kernel
  have hwrap : (match exec 0 [47, 99] [[97]] highStart with
      | .ok (r, k') => decide (r = 1) && decide ((k'.procs 0).sz = 2 * pgSize) &&
          decide ((k'.procs 0).lazyNseg = 1) &&
          decide (((k'.procs 0).lazySegs 0).vaddr = 2 ^ 64 - 2 * pgSize)
      | .error _ => false) = true := by decide +kernel
  split at hwalk
  · next e hwalk' =>
    split at hremap
    · next e' hremap' =>
      split at hwrap
      · next r k' hwrap' =>
        simp only [Bool.and_eq_true, decide_eq_true_eq] at hwalk hremap hwrap
        obtain ⟨⟨⟨rfl, hsz⟩, hn⟩, hva⟩ := hwrap
        subst hwalk hremap
        refine ⟨highStart_reachable.small, by decide +kernel, hwalk', hremap', ⟨k', hwrap', hsz, hn,
          hva⟩, ?_⟩
        intro c hc hsafe
        simp only [List.mem_cons, List.not_mem_nil, or_false] at hc
        rcases hc with rfl | rfl | rfl
        · exact hsafe.noPanic _ hwalk' trivial
        · exact hsafe.noPanic _ hremap' trivial
        · have := (hsafe.size _ _ hwrap' (by decide)).2 0 (by rw [hn]; decide)
          rw [hva, hsz] at this
          simp only [pgSize, Fin.isValue] at this
          omega
      · cases hwrap
    · cases hremap
  · cases hwalk

end Xv6
