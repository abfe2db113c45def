import OsnMp2.Kernel.TaskInv

/-!
# What `exec` does

The outcomes of `exec` on an open executable. The program headers that are recorded, and the bytes
that are pushed on the stack, are functions of the file and of the arguments; whether `exec` still
fails after it has mapped the stack page depends on the arguments only.

## Main definitions

* `elfHdrOf`, `scanHdrs`: the headers that `exec` finds in a file
* `stackImage`: the stack page with the arguments pushed
* `ExecOut`: the outcomes of `exec`

## Main results

* `pushStack_eq`: pushing the arguments, without any page fault
* `execImage_spec`: `exec` has one of its outcomes
-/

namespace Xv6

variable {m m' : Mem} {t t' : Task} {root tf : Frame} {own own' : Set Frame}

/-! ## The headers of the file -/

/-- The ELF header of a file, when it is there and has the magic number. -/
def elfHdrOf (d : Dinode) : Option ElfHdr :=
  if readiLen d 0 elfHdrSize = elfHdrSize ∧ (ElfHdr.ofBytes d.data).magic = elfMagic then
    some (ElfHdr.ofBytes d.data)
  else none

/-- The program header at `off`, when the file is long enough. -/
def progHdrAt (d : Dinode) (off : Nat) : Option ProgHdr :=
  if readiLen d (u32 off) progHdrSize = progHdrSize then
    some (ProgHdr.ofBytes fun k => d.data (u32 off + k))
  else none

/-- The program headers that `exec` records, `count` having been recorded before, and whether it
gets through all of them. -/
def scanHdrs (d : Dinode) : Nat → Nat → Nat → List ProgHdr × Bool
  | 0, _, _ => ([], true)
  | n + 1, off, count =>
    match progHdrAt d off with
    | none => ([], false)
    | some ph =>
      if ph.type ≠ elfProgLoad then scanHdrs d n (off + progHdrSize) count
      else if !ph.loadable then ([], false)
      else if count < 16 then
        (ph :: (scanHdrs d n (off + progHdrSize) (count + 1)).1,
          (scanHdrs d n (off + progHdrSize) (count + 1)).2)
      else ([], false)

/-- The entries from `count` on replaced by the segments of `l`. -/
def setSegs (segs : Fin 16 → LazySeg) (ip count : Nat) (l : List ProgHdr) : Fin 16 → LazySeg :=
  fun i => if count ≤ i.val then
      match l[i.val - count]? with
      | some ph => ph.seg ip
      | none => segs i
    else segs i

/-- The highest end of a segment, from `sz` on. -/
def segEnd (l : List ProgHdr) (sz : Nat) : Nat :=
  l.foldl (fun acc ph => max acc (u64 (ph.vaddr + ph.memsz))) sz

theorem setSegs_nil (segs : Fin 16 → LazySeg) (ip count : Nat) :
    setSegs segs ip count [] = segs := by
  funext i
  simp [setSegs]

theorem setSegs_cons (segs : Fin 16 → LazySeg) (ip : Nat) {count : Nat} (h : count < 16)
    (ph : ProgHdr) (l : List ProgHdr) :
    setSegs (Function.update segs ⟨count, h⟩ (ph.seg ip)) ip (count + 1) l =
      setSegs segs ip count (ph :: l) := by
  funext i
  unfold setSegs
  by_cases hi : i.val = count
  · have hif : i = ⟨count, h⟩ := Fin.ext hi
    rw [if_neg (by omega), if_pos (by omega), hif]
    simp
  · have hne : i ≠ ⟨count, h⟩ := fun hc => hi (congrArg Fin.val hc)
    by_cases hlt : count ≤ i.val
    · rw [if_pos (by omega), if_pos hlt, Function.update_of_ne hne]
      obtain ⟨k, hk⟩ : ∃ k, i.val - count = k + 1 := ⟨i.val - count - 1, by omega⟩
      rw [hk, show i.val - (count + 1) = k by omega, List.getElem?_cons_succ]
    · rw [if_neg (by omega), if_neg hlt, Function.update_of_ne hne]

/-- The process with the program headers `l` recorded after the segments it has. -/
def recordProc (p : Proc) (ip : Nat) (l : List ProgHdr) : Proc :=
  { p with lazySegs := setSegs p.lazySegs ip p.lazyNseg l, lazyNseg := p.lazyNseg + l.length }

theorem recordProc_nil (p : Proc) (ip : Nat) : recordProc p ip [] = p := by
  rw [recordProc, setSegs_nil]
  rfl

/-- **The loop over the program headers** records what `scanHdrs` says. -/
theorem recordSegs_spec {fs : Fs} {ip : Nat} :
    ∀ n {off sz : Nat} {t t' : Task} {r : Option Nat} {l : List ProgHdr} {through : Bool},
      recordSegs fs ip n off sz t = .ok (r, t') →
      scanHdrs (fs.content ip) n off t.p.lazyNseg = (l, through) →
      t' = ⟨t.mem, recordProc t.p ip l⟩ ∧ r = if through then some (segEnd l sz) else none := by
  intro n
  -- On the headers that are left. `recordSegs` and the scan make the same tests in the same order,
  -- so each branch of the one picks the branch of the other.
  induction n with
  | zero =>
    intro off sz t t' r l through hrun hscan
    obtain ⟨rfl, rfl⟩ := Halting.pure_eq_ok.mp hrun
    cases hscan
    exact ⟨by rw [recordProc_nil], rfl⟩
  | succ n ih =>
    intro off sz t t' r l through hrun hscan
    rw [recordSegs] at hrun
    obtain ⟨⟨len, bytes⟩, t₁, hread, hrun⟩ := Halting.bind_eq_ok.mp hrun
    obtain ⟨hrd, ht₁⟩ := liftFs_eq_ok.mp hread
    rw [ht₁] at hrun
    have hr := readi_eq_ok hrd
    obtain ⟨rfl, rfl⟩ := Prod.mk.inj hr
    dsimp only at hrun
    rw [show u32 progHdrSize = progHdrSize from rfl] at hrun
    rw [scanHdrs] at hscan
    unfold progHdrAt at hscan
    split at hrun
    · next hne =>
      obtain ⟨rfl, rfl⟩ := Halting.pure_eq_ok.mp hrun
      rw [if_neg hne] at hscan
      cases hscan
      exact ⟨by rw [recordProc_nil], rfl⟩
    next heq =>
    rw [if_pos (by simpa using heq)] at hscan
    dsimp only at hscan
    split at hrun
    · next hty =>
      rw [if_pos hty] at hscan
      exact ih hrun hscan
    next hty =>
    rw [if_neg hty] at hscan
    split at hrun
    · next hload =>
      obtain ⟨rfl, rfl⟩ := Halting.pure_eq_ok.mp hrun
      rw [if_pos hload] at hscan
      cases hscan
      exact ⟨by rw [recordProc_nil], rfl⟩
    next hload =>
    rw [if_neg hload] at hscan
    rw [Halting.bind_of_ok (Halting.get_apply _)] at hrun
    split at hrun
    · next hlt =>
      obtain ⟨_, t₂, hset, hrun⟩ := Halting.bind_eq_ok.mp hrun
      cases hset
      rw [if_pos hlt] at hscan
      obtain ⟨rfl, rfl⟩ := Prod.mk.inj hscan
      obtain ⟨ht', hr'⟩ := ih hrun rfl
      refine ⟨?_, hr'⟩
      rw [ht', recordProc, recordProc]
      dsimp only
      -- the segment recorded here comes first, the scan behind it starts at the next index
      rw [setSegs_cons, List.length_cons, Nat.add_assoc, Nat.add_comm 1]
    · next hlt =>
      obtain ⟨rfl, rfl⟩ := Halting.pure_eq_ok.mp hrun
      rw [if_neg hlt] at hscan
      cases hscan
      exact ⟨by rw [recordProc_nil], rfl⟩

/-- At most sixteen headers are recorded. -/
theorem length_scanHdrs (d : Dinode) :
    ∀ n off count, count ≤ 16 → count + (scanHdrs d n off count).1.length ≤ 16 := by
  intro n
  induction n with
  | zero => intro off count h; simpa [scanHdrs] using h
  | succ n ih =>
    intro off count h
    rw [scanHdrs]
    cases progHdrAt d off with
    | none => simpa using h
    | some ph =>
      dsimp only
      split
      · exact ih _ _ h
      split
      · simpa using h
      split
      · next hlt =>
        have := ih (off + progHdrSize) (count + 1) (by omega)
        simp only [List.length_cons]
        omega
      · simpa using h

/-! ## The arguments on the stack -/

/-- The bytes `b` with `bs` written from `off` on. -/
def writeAt (b : Nat → UInt8) (off : Nat) (bs : List UInt8) : Nat → UInt8 :=
  fun k => if off ≤ k ∧ k < off + bs.length then bs.getD (k - off) 0 else b k

/-- The stack pointer after pushing `n` bytes, when they fit above `stackbase`. -/
def pushFit (stackbase sp n : Nat) : Option Nat :=
  if n ≤ sp ∧ stackbase ≤ pushSp sp n then some (pushSp sp n) else none

/-- The argument strings pushed on the page at `stackbase` with bytes `b`: the stack pointer, their
addresses and the bytes of the page; `none` when there are too many or they do not fit. -/
def stackArgs (stackbase : Nat) :
    List (List UInt8) → Nat → List Nat → (Nat → UInt8) → Option (Nat × List Nat × (Nat → UInt8))
  | [], sp, ustack, b => some (sp, ustack, b)
  | s :: rest, sp, ustack, b =>
    if maxArg ≤ ustack.length then none
    else match pushFit stackbase sp ((cstr s).length + 1) with
      | none => none
      | some sp' =>
        stackArgs stackbase rest sp' (ustack ++ [sp']) (writeAt b (sp' - stackbase) (cstr s ++ [0]))

/-- **The stack page of a new image**: the stack pointer, `argc` and the bytes of the page, or
`none` when the arguments do not fit. -/
def stackImage (stackbase sz : Nat) (argv : List (List UInt8)) :
    Option (Nat × Nat × (Nat → UInt8)) :=
  match stackArgs stackbase argv sz [] (fun _ => 0) with
  | none => none
  | some (sp, ustack, b) =>
    match pushFit stackbase sp ((ustack.length + 1) * 8) with
    | none => none
    | some sp' => some (sp', ustack.length,
        writeAt b (sp' - stackbase) ((ustack ++ [0]).flatMap fun w => leBytes w 8))

/-- The argument strings are shorter than half of the address space; those of `sys_exec` are
shorter than a page. -/
def ArgvOk (argv : List (List UInt8)) : Prop := ∀ s ∈ argv, s.length < 2 ^ 63

theorem setBytes_eq (m : Mem) (f : Frame) (off : Nat) (bs : List UInt8) :
    m.setBytes f off bs =
      m.setPage f { m.phys f with byte := writeAt (m.phys f).byte off bs } := rfl

theorem lookup_setBytes (m : Mem) (root f : Frame) (off : Nat) (bs : List UInt8) (va : Nat) :
    (m.setBytes f off bs).lookup root va = m.lookup root va := by
  unfold Mem.lookup
  simp only [pte_setBytes]

/-- `copyout` into one mapped page takes no fault. -/
theorem copyout_page {fs : Fs} {dst : Nat} {src : List UInt8} {e : Pte} (hdst : dst < maxVa)
    (he : t.mem.lookup root dst = some e) (hu : e.perm.u = true) (hw : e.perm.w = true)
    (hsrc : src ≠ []) (hfit : dst % pgSize + src.length ≤ pgSize) :
    copyout fs root dst src t = .ok (0, ⟨t.mem.setBytes e.ppn (dst % pgSize) src, t.p⟩) := by
  obtain ⟨n, hn⟩ : ∃ n, src.length = n + 1 :=
    ⟨src.length - 1, by have := List.length_pos_iff.mpr hsrc; omega⟩
  have hva : pgRoundDown dst < maxVa := lt_of_le_of_lt (pgRoundDown_le dst) hdst
  have hlook : t.mem.lookup root (pgRoundDown dst) = some e := (lookup_pgRoundDown _ _ _).trans he
  have hwf : walkaddrFault fs root (pgRoundDown dst) true t = .ok (some e.ppn, t) := by
    unfold walkaddrFault
    rw [Halting.bind_of_ok (onMem_walkaddr hva), hlook, Option.bind_some, if_pos hu]
    rfl
  have hmod : dst - pgRoundDown dst = dst % pgSize := by
    unfold pgRoundDown
    have := Nat.div_add_mod dst pgSize
    simp only [pgSize] at *
    omega
  have hmin : min (pgSize - dst % pgSize) src.length = src.length := by omega
  -- the one round
  have hloop : copyoutLoop fs root (n + 1) dst src t =
      .ok ((0, []), ⟨t.mem.setBytes e.ppn (dst % pgSize) src, t.p⟩) := by
    rw [copyoutLoop, if_neg (by omega), if_neg (by omega), Halting.bind_of_ok hwf]
    dsimp only
    rw [Halting.bind_of_ok (onMem_walk hva)]
    rw [lookup_eq_leaf] at hlook
    obtain ⟨pt, hpt, hv, hpte⟩ := leaf_eq_some.mp hlook
    rw [hpt]
    dsimp only [Option.map_some]
    rw [Halting.bind_of_ok (onMem_readPte _ _ _), hpte, if_neg (by simp [hw]), hmod, hmin,
      List.take_length, List.drop_length]
    cases n with
    | zero => rfl
    | succ n => rfl
  unfold copyout
  rw [hn, Halting.bind_of_ok hloop]
  rfl

/-- `copyout` beyond the address space fails at once. -/
theorem copyout_beyond {fs : Fs} {dst : Nat} {src : List UInt8} (hdst : maxVa + pgSize ≤ dst)
    (hsrc : src ≠ []) : copyout fs root dst src t = .ok (-1, t) := by
  obtain ⟨n, hn⟩ : ∃ n, src.length = n + 1 :=
    ⟨src.length - 1, by have := List.length_pos_iff.mpr hsrc; omega⟩
  have hva : maxVa ≤ pgRoundDown dst := by
    unfold pgRoundDown
    simp only [maxVa, pgSize] at *
    omega
  have hloop : copyoutLoop fs root (n + 1) dst src t = .ok ((-1, src), t) := by
    rw [copyoutLoop, if_neg (by omega), if_pos hva]
    rfl
  unfold copyout
  rw [hn, Halting.bind_of_ok hloop]
  rfl

/-- The page at `stackbase` is mapped to the frame `f` for reading and writing by the user. -/
structure StackPage (m : Mem) (root : Frame) (stackbase : Nat) (f : Frame) : Prop where
  aligned : stackbase % pgSize = 0
  low : stackbase < maxVa
  mapped : ∃ e, m.lookup root stackbase = some e ∧ e.perm.u = true ∧ e.perm.w = true ∧ e.ppn = f

theorem StackPage.setByte {stackbase : Nat} {f : Frame} (h : StackPage m root stackbase f)
    (b : Nat → UInt8) : StackPage (m.setPage f { m.phys f with byte := b }) root stackbase f := by
  refine ⟨h.aligned, h.low, ?_⟩
  obtain ⟨e, he, hrest⟩ := h.mapped
  refine ⟨e, ?_, hrest⟩
  rw [← he]
  unfold Mem.lookup
  simp only [pte_setByte]

theorem setPage_setByte (m : Mem) (f : Frame) (b b' : Nat → UInt8) :
    (m.setPage f { m.phys f with byte := b }).setPage f
      { (m.setPage f { m.phys f with byte := b }).phys f with byte := b' } =
      m.setPage f { m.phys f with byte := b' } := by
  simp [Mem.setPage]

/-- What one push does: the bytes are on the page, or they do not fit and nothing happens. -/
theorem push_spec (fs : Fs) {stackbase sp : Nat} {f : Frame} {src : List UInt8}
    (h : StackPage t.mem root stackbase f) (hsp : stackbase ≤ sp) (hsp' : sp ≤ stackbase + pgSize)
    (hsrc : src ≠ []) (hlen : src.length ≤ 2 ^ 63) :
    (∃ sp', pushFit stackbase sp src.length = some sp' ∧ sp' = pushSp sp src.length ∧
      stackbase ≤ sp' ∧ sp' ≤ sp ∧ copyout fs root sp' src t =
        .ok (0, ⟨t.mem.setPage f { t.mem.phys f with
          byte := writeAt (t.mem.phys f).byte (sp' - stackbase) src }, t.p⟩)) ∨
    (pushFit stackbase sp src.length = none ∧ (pushSp sp src.length < stackbase ∨
      copyout fs root (pushSp sp src.length) src t = .ok (-1, t))) := by
  have hlow := h.low
  have hal := h.aligned
  have hpos := List.length_pos_iff.mpr hsrc
  unfold pushFit
  by_cases hle : src.length ≤ sp
  · have hpush : pushSp sp src.length = (sp - src.length) / 16 * 16 := by
      unfold pushSp u64
      simp only [maxVa, pgSize] at *
      omega
    by_cases hbase : stackbase ≤ pushSp sp src.length
    · refine Or.inl ⟨pushSp sp src.length, if_pos ⟨hle, hbase⟩, rfl, hbase, by omega, ?_⟩
      obtain ⟨e, he, hu, hw, rfl⟩ := h.mapped
      have hpage : pushSp sp src.length / pgSize = stackbase / pgSize := by
        simp only [maxVa, pgSize] at *
        omega
      have hmod : pushSp sp src.length % pgSize = pushSp sp src.length - stackbase := by
        simp only [maxVa, pgSize] at *
        omega
      rw [copyout_page (e := e) (by simp only [maxVa, pgSize] at *; omega)
        ((lookup_of_page hpage).trans he) hu hw hsrc (by simp only [maxVa, pgSize] at *; omega),
        setBytes_eq, hmod]
    · exact Or.inr ⟨if_neg fun hc => hbase hc.2, Or.inl (by omega)⟩
  · refine Or.inr ⟨if_neg fun hc => hle hc.1, Or.inr (copyout_beyond ?_ hsrc)⟩
    -- the stack pointer wraps around, to the top of the 64-bit addresses
    unfold pushSp u64
    simp only [maxVa, pgSize] at *
    omega

/-- **Pushing the argument strings** takes no page fault and writes the stack page only. -/
theorem pushArgs_eq (fs : Fs) {stackbase : Nat} {f : Frame} :
    ∀ (argv : List (List UInt8)) (sp : Nat) (ustack : List Nat) {t : Task}, ArgvOk argv →
      StackPage t.mem root stackbase f → stackbase ≤ sp → sp ≤ stackbase + pgSize →
      ∃ b, pushArgs fs root stackbase argv sp ustack t =
          .ok ((stackArgs stackbase argv sp ustack (t.mem.phys f).byte).map fun x => (x.1, x.2.1),
            ⟨t.mem.setPage f { t.mem.phys f with byte := b }, t.p⟩) ∧
        ∀ x, stackArgs stackbase argv sp ustack (t.mem.phys f).byte = some x →
          b = x.2.2 ∧ stackbase ≤ x.1 ∧ x.1 ≤ stackbase + pgSize := by
  intro argv
  -- On the arguments. Only the bytes of the stack page change, so each push leaves a page of the
  -- same kind for the next.
  induction argv with
  | nil =>
    intro sp ustack t _ _ h1 h2
    refine ⟨(t.mem.phys f).byte, ?_, ?_⟩
    · rw [show t.mem.setPage f { t.mem.phys f with byte := (t.mem.phys f).byte } = t.mem from by
        simp [Mem.setPage]]
      rfl
    · rintro x hx
      cases hx
      exact ⟨rfl, h1, h2⟩
  | cons s rest ih =>
    intro sp ustack t hargv h h1 h2
    have hself : t.mem.setPage f { t.mem.phys f with byte := (t.mem.phys f).byte } = t.mem := by
      simp [Mem.setPage]
    have hslen : (cstr s ++ [0]).length ≤ 2 ^ 63 := by
      have hs := hargv s List.mem_cons_self
      have htake : (cstr s).length ≤ s.length := (List.takeWhile_sublist _).length_le
      simp only [List.length_append, List.length_singleton]
      omega
    have hnil : cstr s ++ [0] ≠ [] := by simp
    have hlen : (cstr s ++ [0]).length = (cstr s).length + 1 := by simp
    rw [pushArgs, stackArgs]
    split
    · refine ⟨(t.mem.phys f).byte, ?_, fun x hx => by cases hx⟩
      rw [hself]
      rfl
    -- Either the string fits above the guard, or the exec fails with the stack as it is.
    rcases push_spec fs h h1 h2 hnil hslen with
      ⟨sp', hfit, hsp', hb1, hb2, hcopy⟩ | ⟨hfit, hfail⟩
    · rw [hlen] at hfit hsp'
      rw [if_neg (by omega), ← hsp', Halting.bind_of_ok hcopy, if_neg (by decide), hfit]
      dsimp only
      have h' := h.setByte (writeAt (t.mem.phys f).byte (sp' - stackbase) (cstr s ++ [0]))
      obtain ⟨b, hrun, hres⟩ := ih sp' (ustack ++ [sp'])
        (t := ⟨t.mem.setPage f { t.mem.phys f with
          byte := writeAt (t.mem.phys f).byte (sp' - stackbase) (cstr s ++ [0]) }, t.p⟩)
        (fun x hx => hargv x (List.mem_cons_of_mem s hx)) h' hb1 (by omega)
      dsimp only at hrun hres
      rw [setPage_setByte] at hrun
      have hbyte : ((t.mem.setPage f { t.mem.phys f with
          byte := writeAt (t.mem.phys f).byte (sp' - stackbase) (cstr s ++ [0]) }).phys f).byte =
          writeAt (t.mem.phys f).byte (sp' - stackbase) (cstr s ++ [0]) := by simp [Mem.setPage]
      rw [hbyte] at hrun hres
      exact ⟨b, hrun, hres⟩
    · rw [hlen] at hfit hfail
      refine ⟨(t.mem.phys f).byte, ?_, fun x hx => by rw [hfit] at hx; cases hx⟩
      rw [hself, hfit]
      split
      · rfl
      · next hge =>
        rw [Halting.bind_of_ok (hfail.resolve_left hge), if_pos (by decide)]
        rfl

theorem length_flatMap_leBytes (l : List Nat) :
    (l.flatMap fun w => leBytes w 8).length = l.length * 8 := by
  induction l with
  | nil => rfl
  | cons w l ih =>
    rw [List.flatMap_cons, List.length_append, ih, List.length_cons]
    simp only [leBytes, List.length_cons, List.length_nil]
    omega

theorem length_stackArgs {stackbase : Nat} :
    ∀ (argv : List (List UInt8)) {sp : Nat} {ustack : List Nat} {b : Nat → UInt8}
      {x : Nat × List Nat × (Nat → UInt8)}, ustack.length ≤ maxArg →
      stackArgs stackbase argv sp ustack b = some x → x.2.1.length ≤ maxArg := by
  intro argv
  induction argv with
  | nil =>
    intro sp ustack b x hu hx
    cases hx
    exact hu
  | cons s rest ih =>
    intro sp ustack b x hu hx
    rw [stackArgs] at hx
    split at hx
    · cases hx
    next hlt =>
    cases hfit : pushFit stackbase sp ((cstr s).length + 1) with
    | none =>
      rw [hfit] at hx
      cases hx
    | some sp' =>
      rw [hfit] at hx
      refine ih ?_ hx
      simp only [List.length_append, List.length_singleton]
      omega

/-- **Pushing the arguments** gives the stack image, without any page fault. -/
theorem pushStack_eq (fs : Fs) {stackbase : Nat} {f : Frame} {argv : List (List UInt8)}
    (hargv : ArgvOk argv) (h : StackPage t.mem root stackbase f)
    (hzero : (t.mem.phys f).byte = fun _ => 0) :
    ∃ b, pushStack fs root stackbase (stackbase + pgSize) argv t =
        .ok ((stackImage stackbase (stackbase + pgSize) argv).map fun x => (x.1, x.2.1),
          ⟨t.mem.setPage f { t.mem.phys f with byte := b }, t.p⟩) ∧
      ∀ x, stackImage stackbase (stackbase + pgSize) argv = some x → b = x.2.2 := by
  obtain ⟨b, hrun, hres⟩ := pushArgs_eq fs argv _ [] hargv h
    (show stackbase ≤ stackbase + pgSize by omega) le_rfl
  rw [hzero] at hrun hres
  unfold pushStack stackImage
  rw [Halting.bind_of_ok hrun]
  cases hargs : stackArgs stackbase argv (stackbase + pgSize) [] (fun _ => 0) with
  | none => exact ⟨b, rfl, fun x hx => by cases hx⟩
  | some x =>
    obtain ⟨sp, ustack, b'⟩ := x
    rw [hargs] at hres
    obtain ⟨rfl, h1, h2⟩ := hres _ rfl
    dsimp only at h1 h2 ⊢
    dsimp only [Option.map_some]
    have hlen := length_flatMap_leBytes (ustack ++ [0])
    have hus := length_stackArgs argv (Nat.zero_le _) hargs
    simp only [List.length_append, List.length_singleton] at hlen
    have hne : ((ustack ++ [0]).flatMap fun w => leBytes w 8) ≠ [] := by
      intro hc
      rw [hc] at hlen
      simp only [List.length_nil] at hlen
      omega
    have hbyte : ((t.mem.setPage f { t.mem.phys f with byte := b }).phys f).byte = b := by
      simp [Mem.setPage]
    rcases push_spec fs (t := ⟨t.mem.setPage f { t.mem.phys f with byte := b }, t.p⟩)
        (h.setByte b) h1 h2 hne (by
          rw [hlen]
          simp only [maxArg] at hus
          omega) with ⟨sp', hfit, hsp', hb1, hb2, hcopy⟩ | ⟨hfit, hfail⟩
    · rw [hlen] at hfit hsp'
      dsimp only at hcopy
      rw [setPage_setByte, hbyte] at hcopy
      rw [if_neg (by omega), ← hsp', Halting.bind_of_ok hcopy, if_neg (by decide), hfit]
      refine ⟨_, rfl, ?_⟩
      rintro x hx
      cases hx
      rfl
    · rw [hlen] at hfit hfail
      rw [hfit]
      refine ⟨b, ?_, fun x hx => by cases hx⟩
      split
      · rfl
      · next hge =>
        rw [Halting.bind_of_ok (hfail.resolve_left hge), if_pos (by decide)]
        rfl

/-! ## The outcomes of `exec` -/

/-- The stack page of an image whose segments end at `segEnd`. -/
def stackBase (l : List ProgHdr) : Nat := execStackbase (execSize (segEnd l 0))

/-- The process once the new page table is there and the headers `l` are recorded. -/
def execProc (p : Proc) (ip : Nat) (l : List ProgHdr) : Proc :=
  recordProc { p with lazyNseg := 0, pfSeq := 0 } ip l

/-- There is memory for the stack page at `base` of the page table `new`. -/
def StackFrame (m : Mem) (new : Frame) (base : Nat) : Prop :=
  ∃ f m₂ m₃, kalloc m = .ok (some f, m₂) ∧
    mappages new base pgSize f { r := true, w := true, u := true }
    (m₂.setPage f (PhysPage.fill 0)) =
      .ok (0, m₃)

/-- There is memory for the page table of a new image and for its stack page at `base`. -/
def StackMapped (m : Mem) (tf : Frame) (base : Nat) : Prop :=
  ∃ new m₁, procPagetable tf m = .ok (some new, m₁) ∧ StackFrame m₁ new base

/-- **The outcomes of `exec`** on the open executable `ip`. -/
inductive ExecOut (fs : Fs) (ip : Nat) (argv : List (List UInt8)) (t : Task) (root tf : Frame)
    (own : Set Frame) : Int → Task → Prop
  /-- the file is not an executable -/
  | noElf (bad : elfHdrOf (fs.content ip) = none) : ExecOut fs ip argv t root tf own (-1) t
  /-- no memory for a page table -/
  | noTable {hdr : ElfHdr} {m' : Mem} (elf : elfHdrOf (fs.content ip) = some hdr)
      (table : procPagetable tf t.mem = .ok (none, m'))
      (acts : t.mem.Acts ∅ m' ∅) : ExecOut fs ip argv t root tf own (-1) ⟨m', t.p⟩
  /-- a bad program header, or no memory for the stack -/
  | bad {hdr : ElfHdr} {l : List ProgHdr} {through : Bool} {m' : Mem}
      (elf : elfHdrOf (fs.content ip) = some hdr)
      (scan : scanHdrs (fs.content ip) hdr.phnum hdr.phoff 0 = (l, through))
      (table : ∃ new m₁, procPagetable tf t.mem = .ok (some new, m₁))
      (acts : t.mem.Acts ∅ m' ∅) (why : through = true → ¬ StackMapped t.mem tf (stackBase l)) :
      ExecOut fs ip argv t root tf own (-1) ⟨m', execProc t.p ip l⟩
  /-- the arguments do not fit: the stack page is mapped, and freed only when it is page zero -/
  | noRoom {hdr : ElfHdr} {l : List ProgHdr} {m' : Mem} {f : Frame}
      (elf : elfHdrOf (fs.content ip) = some hdr)
      (scan : scanHdrs (fs.content ip) hdr.phnum hdr.phoff 0 = (l, true))
      (base : stackBase l < trapframeVa)
      (room : stackImage (stackBase l) (stackBase l + pgSize) argv = none)
      (mapped : StackMapped t.mem tf (stackBase l))
      (acts : t.mem.Acts ∅ m' (if stackBase l = 0 then ∅ else {f})) :
      ExecOut fs ip argv t root tf own (-1) ⟨m', execProc t.p ip l⟩
  /-- the new image, with the stack page alone; the old one is freed below its size -/
  | done {hdr : ElfHdr} {l : List ProgHdr} {m' : Mem} {root' : Frame} {own' : Set Frame}
      {sp argc : Nat} {b : Nat → UInt8} (elf : elfHdrOf (fs.content ip) = some hdr)
      (scan : scanHdrs (fs.content ip) hdr.phnum hdr.phoff 0 = (l, true))
      (base : stackBase l < trapframeVa)
      (image : stackImage (stackBase l) (stackBase l + pgSize) argv = some (sp, argc, b))
      (space : UserSpace m' root' tf own')
      (disjoint : ∀ a ∈ own', a ∉ userPages t.mem root (pgRoundUp t.p.sz / pgSize))
      (acts : t.mem.Acts own m' (userPages t.mem root (pgRoundUp t.p.sz / pgSize) ∪ own'))
      (stack : ∃ f, m'.lookup root' (stackBase l) = some ⟨true,
        { r := true, w := true, u := true }, f⟩ ∧ (m'.phys f).byte = b)
      (empty : ∀ va, va < trapframeVa → va / pgSize ≠ stackBase l / pgSize →
        m'.lookup root' va = none) (fresh : root' ≠ root)
      (mapped : StackMapped t.mem tf (stackBase l)) :
      ExecOut fs ip argv t root tf own argc
        ⟨m', newImage (execProc t.p ip l) root' (stackBase l + pgSize) sp (stackBase l) hdr.entry⟩

theorem UserSpace.tramp_ne (h : UserSpace m root tf own) : m.tramp ≠ tf := fun hc => by
  have := h.space.page_eq (by decide) (by decide) h.trampoline h.trapframe hc
  exact absurd this (by decide)

theorem execStackbase_spec (segs : Nat) :
    execStackbase (execSize segs) % pgSize = 0 ∧ (execStackbase (execSize segs) < maxVa →
      execSize segs = execStackbase (execSize segs) + pgSize) := by
  unfold execStackbase execSize pgRoundUp u64
  simp only [maxVa, pgSize]
  omega

theorem pgRoundDown_of_aligned {a : Nat} (h : a % pgSize = 0) : pgRoundDown a = a :=
  Nat.div_mul_cancel (Nat.dvd_of_mod_eq_zero h)

/-- Freeing the new page table of a failed `exec`: what was mapped from the second page on is
lost. -/
theorem execBad_spec {r : Int} (h : UserSpace t.mem root tf own)
    (hrun : execBad root t = .ok (r, t')) :
    r = -1 ∧ t'.p = t.p ∧ t.mem.Acts own t'.mem (userPages t.mem root 1) := by
  unfold execBad at hrun
  obtain ⟨_, t₁, hfree, hrun⟩ := Halting.bind_eq_ok.mp hrun
  obtain ⟨m₁, hm₁, rfl⟩ := onMem_eq_ok.mp hfree
  obtain ⟨rfl, rfl⟩ := Halting.pure_eq_ok.mp hrun
  exact ⟨rfl, rfl, procFreepagetable_spec h (by decide) hm₁⟩

theorem userPages_empty (h : UserSpace m root tf own) {n : Nat}
    (hnone : ∀ va, va < trapframeVa → n ≤ va / pgSize → m.lookup root va = none) :
    userPages m root n = ∅ := by
  ext a
  simp only [userPages, Set.mem_ofPred_eq, Set.mem_empty_iff_false, iff_false, not_exists]
  rintro va e ⟨hva, hn, he, hu, -⟩
  rw [hnone va (h.low_of_user hva he hu) hn] at he
  cases he

/-- Cleaning up the swap state first makes no difference to the new image. -/
theorem newImage_cleanup (p : Proc) (root sz sp stackPage entry : Nat) :
    newImage (if 0 < p.swapped.length then cleanupSwapFile p else p) root sz sp stackPage entry =
      newImage p root sz sp stackPage entry := by
  split <;> rfl

/-- The address space `own` seen from the one with frames `o`. -/
theorem Apart.swap {new : Frame} {o : Set Frame} (h : Apart m root tf own o)
    (h' : UserSpace m new tf o) : Apart m new tf o own :=
  ⟨h', fun a ha hown => h.disjoint a hown ha, fun hc => (h.user.own_ne _ hc).1 rfl,
    fun hc => (h.user.own_ne _ hc).2 rfl⟩

/-- **The commit of `exec`** installs the new image and frees the old one below its size. -/
theorem execCommit_spec {new : Frame} {ownn : Set Frame} {sz sp stackPage entry : Nat}
    (hold : Apart t.mem root tf own ownn) (hp : t.p.pagetable = some root)
    (hsz : t.p.sz ≤ trapframeVa) (hnew : UserSpace t.mem new tf ownn)
    (hrun : execCommit new sz sp stackPage entry t = .ok ((), t')) :
    t'.p = newImage t.p new sz sp stackPage entry ∧
      t.mem.Acts own t'.mem (userPages t.mem root (pgRoundUp t.p.sz / pgSize)) := by
  unfold execCommit at hrun
  rw [Halting.bind_of_ok (Halting.get_apply _)] at hrun
  obtain ⟨_, t₁, hset, hrun⟩ := Halting.bind_eq_ok.mp hrun
  cases hset
  rw [hp] at hrun
  dsimp only at hrun
  have hne : root ≠ new := fun hc => hold.disjoint root
    (hold.user.space.table_own (p := []) (by simp) rfl)
    (hc ▸ hnew.space.table_own (p := []) (by simp) rfl)
  rw [if_pos hne] at hrun
  obtain ⟨m₁, hm₁, rfl⟩ := onMem_eq_ok.mp hrun
  exact ⟨newImage_cleanup _ _ _ _ _ _, procFreepagetable_spec hold.user hsz hm₁⟩

/-- A failure before anything is mapped in the new page table loses nothing. -/
theorem execBad_unmapped {new : Frame} {ownn : Set Frame} {r : Int} (h : UserSpace m new tf own)
    (hk : Kept t.mem new ownn (fun _ => False) m own)
    (hnone : ∀ va, va < trapframeVa → t.mem.lookup new va = none)
    (hrun : execBad new ⟨m, t.p⟩ = .ok (r, t')) :
    r = -1 ∧ t'.p = t.p ∧ t.mem.Acts ownn t'.mem ∅ := by
  obtain ⟨hr, hp, hacts⟩ := execBad_spec h hrun
  have hempty : userPages m new 1 = ∅ := userPages_empty h fun va hva _ => by
    have hva' : va < maxVa := by simp only [trapframeVa, trampolineVa, maxVa, pgSize] at *; omega
    rw [hk.lookup va hva' not_false]
    exact hnone va hva
  rw [hempty] at hacts
  exact ⟨hr, hp, hk.acts.trans hacts⟩

/-- The frame of the stack page is all that the new page table has, and `execBad` does not look at
the first page. -/
theorem userPages_stack {base : Nat} {g : Frame} (h : UserSpace m root tf own) (hlow : base < maxVa)
    (hal : base % pgSize = 0)
    (hg : m.lookup root base = some ⟨true, { r := true, w := true, u := true }, g⟩)
    (hother : ∀ va, va < trapframeVa → va / pgSize ≠ base / pgSize → m.lookup root va = none) :
    userPages m root 1 = if base = 0 then ∅ else {g} := by
  ext a
  constructor
  · rintro ⟨va, e, hva, hn, he, hu, rfl⟩
    have hpage : va / pgSize = base / pgSize := by
      by_contra hne
      rw [hother va (h.low_of_user hva he hu) hne] at he
      cases he
    rw [lookup_of_page hpage, hg] at he
    cases he
    rw [if_neg]
    · rfl
    · rintro rfl
      simp only [pgSize] at *
      omega
  · intro ha
    split at ha
    · exact absurd ha (Set.notMem_empty a)
    · next hne =>
      obtain rfl : a = g := ha
      refine ⟨base, _, hlow, ?_, hg, rfl, rfl⟩
      simp only [pgSize] at *
      omega

/-- The part of `exec` after the headers are recorded. -/
theorem execStack_spec {fs : Fs} {new : Frame} {ownn : Set Frame} {segs entry : Nat}
    {argv : List (List UInt8)} {r : Int} (hargv : ArgvOk argv) (hold : Apart t.mem root tf own ownn)
    (hp : t.p.pagetable = some root) (hsz : t.p.sz ≤ trapframeVa)
    (hnew : UserSpace t.mem new tf ownn)
    (hnone : ∀ va, va < trapframeVa → t.mem.lookup new va = none)
    (hrun : execStack fs new (execSize segs) entry argv t = .ok (r, t')) :
    (r = -1 ∧ t'.p = t.p ∧ t.mem.Acts ownn t'.mem ∅ ∧
      ¬ StackFrame t.mem new (execStackbase (execSize segs))) ∨
    (execStackbase (execSize segs) < trapframeVa ∧
      execSize segs = execStackbase (execSize segs) + pgSize ∧
      StackFrame t.mem new (execStackbase (execSize segs)) ∧
      ((r = -1 ∧ t'.p = t.p ∧
          stackImage (execStackbase (execSize segs)) (execSize segs) argv = none ∧
          ∃ f, t.mem.Acts ownn t'.mem
            (if execStackbase (execSize segs) = 0 then ∅ else {f})) ∨
        ∃ sp argc b own' m₁, r = (argc : Nat) ∧
          stackImage (execStackbase (execSize segs)) (execSize segs) argv = some (sp, argc, b) ∧
          t'.p = newImage t.p new (execSize segs) sp (execStackbase (execSize segs)) entry ∧
          t.mem.Acts ownn m₁ own' ∧ UserSpace m₁ new tf own' ∧
          m₁.Acts own t'.mem (userPages t.mem root (pgRoundUp t.p.sz / pgSize)) ∧
          (∃ f, m₁.lookup new (execStackbase (execSize segs)) =
              some ⟨true, { r := true, w := true, u := true }, f⟩ ∧ (m₁.phys f).byte = b) ∧
          ∀ va, va < trapframeVa → va / pgSize ≠ execStackbase (execSize segs) / pgSize →
            m₁.lookup new va = none)) := by
  obtain ⟨hal, hsize⟩ := execStackbase_spec segs
  obtain ⟨base, hbase⟩ : ∃ base, base = execStackbase (execSize segs) := ⟨_, rfl⟩
  rw [← hbase] at hal hsize ⊢
  unfold execStack at hrun
  obtain ⟨o, t₁, hkal, hrun⟩ := Halting.bind_eq_ok.mp hrun
  obtain ⟨m₁, hm₁, rfl⟩ := onMem_eq_ok.mp hkal
  rcases hnew.kalloc_holds hm₁ with ⟨rfl, -, h₁, hk₁⟩ | ⟨f, rfl, hholds⟩
  · obtain ⟨hr, hpr, hacts⟩ := execBad_unmapped h₁ hk₁ hnone hrun
    refine Or.inl ⟨hr, hpr, hacts, ?_⟩
    rintro ⟨f, m₂, m₃, hk, -⟩
    rw [hm₁] at hk
    cases hk
  dsimp only at hrun
  obtain ⟨_, t₂, hset, hrun⟩ := Halting.bind_eq_ok.mp hrun
  obtain ⟨m₂, hm₂, rfl⟩ := onMem_eq_ok.mp hset
  cases hm₂
  obtain ⟨r₃, t₃, hmap, hrun⟩ := Halting.bind_eq_ok.mp hrun
  obtain ⟨m₃, hm₃, rfl⟩ := onMem_eq_ok.mp hmap
  rw [← hbase, pgRoundDown_of_aligned hal] at hm₃ hrun
  have hholds₂ := hholds.setPage (PhysPage.fill 0)
  rcases hholds₂.mapUser (Kept.refl hnew.space.owned) hnew rfl rfl hm₃ with
    ⟨rfl, -, hback⟩ | ⟨rfl, own₃, h₃, hin⟩
  · rw [if_pos (by decide)] at hrun
    obtain ⟨_, t₄, hkf, hrun⟩ := Halting.bind_eq_ok.mp hrun
    obtain ⟨m₄, hm₄, rfl⟩ := onMem_eq_ok.mp hkf
    obtain ⟨own₄, h₄, hk₄⟩ := hback m₄ hm₄
    obtain ⟨hr, hpr, hacts⟩ := execBad_unmapped h₄ hk₄ hnone hrun
    refine Or.inl ⟨hr, hpr, hacts, ?_⟩
    rintro ⟨f', m₂, m₅, hk, hok⟩
    obtain ⟨hf, rfl⟩ := Prod.mk.inj (Except.ok.inj (hk.symm.trans hm₁))
    obtain rfl := Option.some.inj hf
    cases hm₃.symm.trans hok
  rw [if_neg (by decide)] at hrun
  -- the stack page is mapped, and nothing else is
  obtain ⟨g, hg, hgb⟩ := hin.page
  have hlow : base < trapframeVa := h₃.low_of_user hin.low hg rfl
  have hsize' := hsize hin.low
  have hzero : (m₃.phys g).byte = fun _ => 0 := by
    rw [hgb, Mem.setPage]
    simp only [Function.update_self]
    rfl
  have hother : ∀ va, va < trapframeVa → va / pgSize ≠ base / pgSize →
      m₃.lookup new va = none := fun va hva hne => by
    have hva' : va < maxVa := by simp only [trapframeVa, trampolineVa, maxVa, pgSize] at *; omega
    rw [hin.lookup va hva' hne (by simp)]
    exact hnone va hva
  refine Or.inr ⟨hlow, hsize', ⟨f, m₁, m₃, hm₁, hm₃⟩, ?_⟩
  obtain ⟨ro, t₄, hpush, hrun⟩ := Halting.bind_eq_ok.mp hrun
  obtain ⟨b, heq, hb⟩ := pushStack_eq fs (t := ⟨m₃, t.p⟩) hargv
    ⟨hal, hin.low, _, hg, rfl, rfl, rfl⟩ hzero
  rw [hsize', heq] at hpush
  obtain ⟨rfl, rfl⟩ := Prod.mk.inj (Except.ok.inj hpush)
  have hgown : g ∈ own₃ := h₃.lookup_own hg rfl
  obtain ⟨h₄, hacts₄⟩ := h₃.setByte hgown b
  have hlook₄ : ∀ va, (m₃.setPage g { m₃.phys g with byte := b }).lookup new va =
      m₃.lookup new va := h₃.lookup_congr fun a _ => pte_setByte m₃ g b a
  have hacts : t.mem.Acts ownn (m₃.setPage g { m₃.phys g with byte := b }) own₃ :=
    hin.acts.trans hacts₄
  rw [← hsize'] at hb hrun
  cases himg : stackImage base (execSize segs) argv with
  | none =>
    rw [himg] at hrun
    dsimp only [Option.map_none] at hrun
    obtain ⟨hr, hpr, hbad⟩ := execBad_spec (by exact h₄) hrun
    refine Or.inl ⟨hr, hpr, rfl, g, ?_⟩
    rw [userPages_stack h₄ hin.low hal ((hlook₄ base).trans hg) fun va hva hne =>
      (hlook₄ va).trans (hother va hva hne)] at hbad
    exact hacts.trans hbad
  | some x =>
    obtain ⟨sp, argc, b'⟩ := x
    obtain rfl := hb _ himg
    rw [himg] at hrun
    dsimp only [Option.map_some] at hrun
    obtain ⟨_, t₅, hcommit, hrun⟩ := Halting.bind_eq_ok.mp hrun
    obtain ⟨rfl, rfl⟩ := Halting.pure_eq_ok.mp hrun
    have hold₄ := hold.acts hacts
    obtain ⟨hpr, hfree⟩ := execCommit_spec (t := ⟨_, t.p⟩) hold₄ hp hsz h₄ hcommit
    have hpages : userPages (m₃.setPage g { m₃.phys g with byte := b }) root
        (pgRoundUp t.p.sz / pgSize) = userPages t.mem root (pgRoundUp t.p.sz / pgSize) := by
      simp only [userPages, hold.lookup hacts]
    refine Or.inr ⟨sp, argc, b, own₃, _, rfl, rfl, ?_, hacts, h₄, ?_, ⟨g, ?_, ?_⟩, ?_⟩
    · rw [hpr, hbase]
    · rw [← hpages]
      exact hfree
    · rw [hlook₄, hg]
    · simp [Mem.setPage]
    · intro va hva hne
      rw [hlook₄]
      exact hother va hva hne

/-- **`exec` on an open executable** has one of its outcomes. -/
theorem execImage_spec {fs : Fs} {ip : Nat} {argv : List (List UInt8)} {r : Int}
    (hargv : ArgvOk argv) (h : TaskOk t root tf own) (hrun : execImage fs ip argv t = .ok (r, t')) :
    ExecOut fs ip argv t root tf own r t' := by
  unfold execImage at hrun
  obtain ⟨⟨len, bytes⟩, t₀, hread, hrun⟩ := Halting.bind_eq_ok.mp hrun
  obtain ⟨hrd, ht₀⟩ := liftFs_eq_ok.mp hread
  rw [ht₀] at hrun
  obtain ⟨rfl, rfl⟩ := Prod.mk.inj (readi_eq_ok hrd)
  have hbytes : (fun k => (fs.content ip).data (u32 0 + k)) = (fs.content ip).data := by
    funext k
    rw [show u32 0 = 0 from rfl, Nat.zero_add]
  dsimp only at hrun
  rw [hbytes, show u32 0 = 0 from rfl, show u32 elfHdrSize = elfHdrSize from rfl] at hrun
  split at hrun
  · next hne =>
    obtain ⟨rfl, rfl⟩ := Halting.pure_eq_ok.mp hrun
    exact .noElf (if_neg fun hc => hne hc.1)
  next hlen =>
  split at hrun
  · next hne =>
    obtain ⟨rfl, rfl⟩ := Halting.pure_eq_ok.mp hrun
    exact .noElf (if_neg fun hc => hne hc.2)
  next hmagic =>
  obtain ⟨hdr, hhdr⟩ : ∃ hdr, hdr = ElfHdr.ofBytes (fs.content ip).data := ⟨_, rfl⟩
  have helf : elfHdrOf (fs.content ip) = some hdr := by
    rw [elfHdrOf, if_pos ⟨by simpa using hlen, by simpa using hmagic⟩, hhdr]
  rw [← hhdr, Halting.bind_of_ok (Halting.get_apply _), h.trapframe] at hrun
  obtain ⟨o, t₁, htable, hrun⟩ := Halting.bind_eq_ok.mp hrun
  obtain ⟨m₁, hm₁, rfl⟩ := onMem_eq_ok.mp htable
  have hshared := fun a ha => h.space.not_free (a := a) ha
  rcases procPagetable_spec h.space.space.owned.nodup (fun hc => (hshared _ hc).1 rfl)
      (fun hc => (hshared _ hc).2.1 rfl) h.space.tramp_ne hm₁ with
    ⟨rfl, hacts⟩ | ⟨new, ownn, rfl, hnew, hacts, -, hnone⟩
  · obtain ⟨rfl, rfl⟩ := Halting.pure_eq_ok.mp hrun
    exact .noTable helf hm₁ hacts
  dsimp only at hrun
  obtain ⟨_, t₂, hset, hrun⟩ := Halting.bind_eq_ok.mp hrun
  cases hset
  obtain ⟨ro, t₃, hrec, hrun⟩ := Halting.bind_eq_ok.mp hrun
  cases hscan : scanHdrs (fs.content ip) hdr.phnum hdr.phoff 0 with
  | mk l through =>
    obtain ⟨ht₃, rfl⟩ := recordSegs_spec _ hrec hscan
    subst ht₃
    cases through with
    | false =>
      obtain ⟨rfl, hpr, hbad⟩ := execBad_spec (by exact hnew) hrun
      rw [userPages_empty hnew fun va hva _ => hnone va hva] at hbad
      obtain ⟨m', p'⟩ := t'
      dsimp only at hpr
      rw [hpr]
      exact .bad helf hscan ⟨new, m₁, hm₁⟩ (hacts.trans hbad) fun hc => by cases hc
    | true =>
      have hold : Apart m₁ root tf own ownn :=
        (Apart.acts ⟨h.space, fun _ _ => Set.notMem_empty _, Set.notMem_empty _,
          Set.notMem_empty _⟩ hacts)
      obtain ⟨m', p'⟩ := t'
      rcases execStack_spec hargv (by exact hold) (by exact h.pagetable) (by exact h.size)
          (by exact hnew) (by exact hnone) hrun with
        ⟨rfl, hpr, hbad, hno⟩ | ⟨hbase, hsize, hframe, ⟨rfl, hpr, himg, f, hbad⟩ |
          ⟨sp, argc, b, own', m₂, rfl, himg, hpr, hacts₂, h₂, hfree, hstack, hempty⟩⟩
      · dsimp only at hpr
        rw [hpr]
        refine .bad helf hscan ⟨new, m₁, hm₁⟩ (hacts.trans hbad) fun _ hmapped => ?_
        obtain ⟨new', m₁', htable, hframe⟩ := hmapped
        obtain ⟨hnew', rfl⟩ := Prod.mk.inj (Except.ok.inj (htable.symm.trans hm₁))
        obtain rfl := Option.some.inj hnew'
        exact hno hframe
      · dsimp only at hpr
        rw [hpr]
        have himg' : stackImage (stackBase l) (execSize (segEnd l 0)) argv = none := himg
        rw [show execSize (segEnd l 0) = stackBase l + pgSize from hsize] at himg'
        exact .noRoom helf hscan hbase himg' ⟨new, m₁, hm₁, hframe⟩ (hacts.trans hbad)
      · dsimp only at hpr hfree
        have himg' : stackImage (stackBase l) (execSize (segEnd l 0)) argv = some (sp, argc, b) :=
          himg
        rw [show execSize (segEnd l 0) = stackBase l + pgSize from hsize] at himg'
        rw [hpr, show execStackbase (execSize (segEnd l 0)) = stackBase l from rfl,
          show execSize (segEnd l 0) = stackBase l + pgSize from hsize]
        have hold₂ := hold.acts hacts₂
        have hpages : userPages m₁ root (pgRoundUp t.p.sz / pgSize) =
            userPages t.mem root (pgRoundUp t.p.sz / pgSize) := by
          simp only [userPages, Apart.lookup (o := ∅) ⟨h.space, fun _ _ => Set.notMem_empty _,
            Set.notMem_empty _, Set.notMem_empty _⟩ hacts]
        have hfree' : m₂.Acts own m' (userPages t.mem root (pgRoundUp t.p.sz / pgSize)) :=
          hpages ▸ hfree
        have hapart := hold₂.swap h₂
        have hnew₂ := hapart.acts hfree'
        -- the new frames come first, with the old ones as a frame; then the old ones are freed
        have hnewacts : t.mem.Acts own m₂ (own' ∪ own) := by
          have hfr := (hacts.trans hacts₂).frame h.space.space.owned fun _ _ => Set.notMem_empty _
          rwa [Set.empty_union] at hfr
        have hfreeacts : m₂.Acts (own' ∪ own) m'
            (userPages t.mem root (pgRoundUp t.p.sz / pgSize) ∪ own') := by
          have hfr := hfree'.frame h₂.space.owned hapart.disjoint
          rwa [Set.union_comm own own'] at hfr
        obtain ⟨f, hf, hfb⟩ := hstack
        refine .done helf hscan hbase himg' hnew₂.user hnew₂.disjoint (hnewacts.trans hfreeacts)
          ⟨f, ?_, ?_⟩ (fun va hva hne => ?_) (fun hc => ?_) ⟨new, m₁, hm₁, hframe⟩
        · rw [hapart.lookup hfree', ← hf]
          rfl
        · rw [hapart.phys hfree' f (h₂.lookup_own hf rfl), hfb]
        · rw [hapart.lookup hfree']
          exact hempty va hva hne
        · exact hapart.disjoint new (h₂.space.table_own (p := []) (by simp) rfl)
            (hc ▸ h.space.space.table_own (p := []) (by simp) rfl)

end Xv6
