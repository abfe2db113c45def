import Mathlib.Algebra.Order.BigOperators.Group.Finset
import OsnMp2.Kernel.Shrink

/-!
# Reference counts of inodes over whole runs

An in-memory inode is held by open files, current directories and the entries of `lazy_segs`.
`fork`, `exit` and `wait` keep the reference counts equal to the numbers of holders: `fork` takes a
reference for every entry, and `freeproc` drops one for every entry. `exec` does not. It takes one
reference by `namei` and one more when it succeeds, however many entries it writes, and it drops
none for the entries that it overwrites.

## Main definitions

* `holders`: how many open files, directories and segments of live processes point to an inode
* `Exchanged`: the entries that `exec` overwrites make up for the references it takes
* `RefsKept`: the condition on a step

## Main results

* `refs_balanced`: reference counts equal the numbers of holders along runs whose steps meet the
  condition
* `exec_drops_ref`: a program with three segments, whose count is below zero once it is reaped
-/

namespace Xv6

open Finset (range)

variable {k k' k'' : Kernel} {i ip x : Nat} {root tf : Frame} {own : Nat → Set Frame}
  {o o' : Set Frame} {t t' : Task} {p p' : Proc} {fs : Fs} {m : Mem}

/-! ## Holders -/

/-- How often a process points to the inode `ip`: with its current directory and its segments. -/
def procRefs (p : Proc) (ip : Nat) : Int :=
  if p.state = .unused then 0 else owns p.cwd ip + segRefs p.lazySegs ip

/-- How often the live processes point to `ip`. -/
def held (procs : Nat → Proc) (ip : Nat) : Int := ∑ i ∈ range nProc, procRefs (procs i) ip

/-- **The holders of an inode**: open files, current directories and segments of live processes. -/
def holders (k : Kernel) (ip : Nat) : Int :=
  ∑ f ∈ range nFile, fileRefs (k.ftable f) ip + held k.procs ip

theorem owns_nonneg (o : Option Nat) (ip : Nat) : 0 ≤ owns o ip := by
  unfold owns
  split <;> decide

theorem holders_nonneg (k : Kernel) (ip : Nat) : 0 ≤ holders k ip := by
  refine add_nonneg (Finset.sum_nonneg fun f _ => ?_) (Finset.sum_nonneg fun i _ => ?_)
  · unfold fileRefs
    split <;> decide
  · unfold procRefs
    split
    · exact le_rfl
    · exact add_nonneg (owns_nonneg _ _) (Finset.sum_nonneg fun j _ => owns_nonneg _ _)

theorem procRefs_of_unused (h : p.state = .unused) (ip : Nat) : procRefs p ip = 0 := if_pos h

theorem procRefs_of_live (h : p.state ≠ .unused) (ip : Nat) :
    procRefs p ip = owns p.cwd ip + segRefs p.lazySegs ip := if_neg h

theorem held_update {procs : Nat → Proc} (hi : i < nProc) (p : Proc) (ip : Nat) :
    held (Function.update procs i p) ip = held procs ip - procRefs (procs i)
    ip + procRefs p ip := by
  have hsum : ∀ h : Nat → Proc, held h ip =
      procRefs (h i) ip + ∑ j ∈ (range nProc).erase i, procRefs (h j) ip := fun h =>
    (Finset.add_sum_erase _ (fun j => procRefs (h j) ip) (Finset.mem_range.mpr hi)).symm
  have hrest : ∑ j ∈ (range nProc).erase i, procRefs (Function.update procs i p j) ip =
      ∑ j ∈ (range nProc).erase i, procRefs (procs j) ip := by
    refine Finset.sum_congr rfl fun j hj => ?_
    rw [Function.update_of_ne (Finset.ne_of_mem_erase hj)]
  rw [hsum, hsum procs, hrest, Function.update_self]
  ring

/-! ## The invariant -/

/-- **The invariant**: every reference is held by someone; slots that are not in use hold no
segment, and a zombie no directory. -/
structure RefInv (k : Kernel) : Prop where
  balanced : ∀ ip, net k ip = held k.procs ip
  slots : ∀ i, nProc ≤ i → (k.procs i).state = .unused
  segs : IdleSegs k
  zombies : ∀ i, (k.procs i).state = .zombie → (k.procs i).cwd = none
  files : ∀ i, FilesOk (k.procs i)

theorem RefInv.lt (h : RefInv k) (hi : (k.procs i).state ≠ .unused) : i < nProc := by
  by_contra hc
  exact hi (h.slots i (by omega))

/-- Two processes that hold the same references. -/
structure SameRefs (p p' : Proc) : Prop where
  state : p'.state = p.state
  cwd : p'.cwd = p.cwd
  lazySegs : p'.lazySegs = p.lazySegs
  ofile : p'.ofile = p.ofile

theorem SameRefs.refl (p : Proc) : SameRefs p p := ⟨rfl, rfl, rfl, rfl⟩

theorem SameImage.sameRefs (h : SameImage p p') : SameRefs p p' :=
  ⟨h.state, h.cwd, h.lazySegs, h.ofile⟩

theorem SameRefs.procRefs (h : SameRefs p p') (ip : Nat) : procRefs p' ip = procRefs p ip := by
  unfold Xv6.procRefs
  rw [h.state, h.cwd, h.lazySegs]

/-- A step in which every process keeps its references. -/
theorem RefInv.congr (h : RefInv k) (hprocs : ∀ j, SameRefs (k.procs j) (k'.procs j))
    (hnet : ∀ ip, net k' ip = net k ip) : RefInv k' where
  balanced ip := by
    rw [hnet, h.balanced]
    exact Finset.sum_congr rfl fun j _ => ((hprocs j).procRefs ip).symm
  slots j hj := (hprocs j).state.trans (h.slots j hj)
  segs j hj s := by
    rw [(hprocs j).lazySegs]
    exact h.segs j ((hprocs j).state ▸ hj) s
  zombies j hj := (hprocs j).cwd.trans (h.zombies j ((hprocs j).state ▸ hj))
  files j fd f hf := h.files j fd f ((hprocs j).ofile ▸ hf)

/-- A step that changes the process in slot `i` alone. -/
theorem RefInv.update (h : RefInv k) (hi : i < nProc)
    (hprocs : k'.procs = Function.update k.procs i p)
    (hnet : ∀ ip, net k' ip = net k ip - procRefs (k.procs i) ip + procRefs p ip)
    (hidle : p.state = .unused → ∀ j, (p.lazySegs j).ip = none)
    (hzombie : p.state = .zombie → p.cwd = none) (hfiles : FilesOk p) : RefInv k' := by
  have hcase : ∀ j, k'.procs j = if j = i then p else k.procs j := fun j => by
    rw [hprocs, Function.update_apply]
  refine ⟨fun ip => ?_, fun j hj => ?_, fun j hj => ?_, fun j hj => ?_, fun j => ?_⟩
  · rw [hnet, hprocs, held_update hi, h.balanced]
  · rw [hcase, if_neg (by omega)]
    exact h.slots j hj
  · rw [hcase] at hj ⊢
    split at hj
    · next hji => rw [if_pos hji]; exact hidle hj
    · next hji => rw [if_neg hji]; exact h.segs j hj
  · rw [hcase] at hj ⊢
    split at hj
    · next hji => rw [if_pos hji]; exact hzombie hj
    · next hji => rw [if_neg hji]; exact h.zombies j hj
  · rw [hcase]
    split
    · exact hfiles
    · exact h.files j

/-! ## Processes -/

/-- A step of the running process that keeps its image. -/
theorem RefInv.setTask (h : RefInv k) (hs : SameRefs (k.procs i) t.p) : RefInv (k.setTask i t) := by
  refine h.congr (fun j => ?_) fun _ => rfl
  by_cases hj : j = i
  · subst hj
    simpa [Kernel.setTask] using hs
  · simpa [Kernel.setTask, hj] using SameRefs.refl _

theorem RefInv.updProc {f : Proc → Proc} (h : RefInv k) (hrun : Xv6.updProc i f k = .ok ((), k'))
    (hf : ∀ p, SameRefs p (f p)) : RefInv k' := by
  rw [updProc_apply] at hrun
  cases hrun
  refine h.congr (fun j => ?_) fun _ => rfl
  by_cases hj : j = i
  · subst hj
    simpa using hf _
  · simpa [hj] using SameRefs.refl _

/-- **`kexit`** drops the reference to the current directory. -/
theorem RefInv.kexit {status : Int} (h : RefInv k) (hr : (k.procs i).state ≠ .unused)
    (hrun : Xv6.kexit i status k = .ok ((), k')) : RefInv k' := by
  obtain ⟨files, hsub, hprocs, hnet⟩ := kexit_effect hrun
  have hok : FilesOk (k.procs i) := h.files i
  -- the same without the change of parents
  have hmid : RefInv { k' with procs := Function.update k.procs i { k.procs i with
      ofile := files, cwd := none, xstate := status, state := .zombie } } := by
    refine h.update (h.lt hr) rfl (fun ip => ?_) (fun hc => by cases hc) (fun _ => rfl)
      fun fd f hf => hok fd f (hsub fd f hf)
    refine (show net _ ip = net k' ip from rfl).trans ?_
    rw [hnet hok ip, procRefs_of_live hr, procRefs_of_live (by rintro ⟨⟩)]
    simp only [owns_none]
    ring
  refine hmid.congr (fun j => ?_) fun _ => rfl
  obtain ⟨q, hq⟩ := hprocs j
  rw [hq]
  by_cases hj : j = i
  · subst hj
    simp only [if_true, Function.update_self]
    exact ⟨rfl, rfl, rfl, rfl⟩
  · simp only [if_neg hj, Function.update_of_ne hj]
    exact ⟨rfl, rfl, rfl, rfl⟩

/-- Slots that are not in use hold nothing, whatever becomes of them. -/
theorem RefInv.aborted (h : RefInv k) (hab : Aborted k k') (hnet : ∀ ip, net k' ip = net k ip) :
    RefInv k' where
  balanced ip := by
    rw [hnet, h.balanced]
    refine Finset.sum_congr rfl fun j _ => ?_
    rcases hab j with heq | hidle
    · rw [heq]
    · rw [procRefs_of_unused hidle.before, procRefs_of_unused hidle.after]
  slots j hj := by
    rcases hab j with heq | hidle
    · rw [heq]
      exact h.slots j hj
    · exact hidle.after
  segs j hj := by
    rcases hab j with heq | hidle
    · rw [heq] at hj ⊢
      exact h.segs j hj
    · exact hidle.segs
  zombies j hj := by
    rcases hab j with heq | hidle
    · rw [heq] at hj ⊢
      exact h.zombies j hj
    · rw [hidle.after] at hj
      cases hj
  files j := by
    rcases hab j with heq | hidle
    · rw [heq]
      exact h.files j
    · intro fd f hf
      rw [hidle.ofile] at hf
      exact h.files j fd f hf

/-- **`kfork`** takes a reference for everything the child holds. -/
theorem RefInv.kfork {r : Int} (h : RefInv k) (hr : (k.procs i).state = .runnable)
    (hrun : Xv6.kfork i k = .ok (r, k')) : RefInv k' := by
  rcases kfork_effect (by rw [hr]; decide) hrun with ⟨hab, hnet⟩ | ⟨j, tf, root, hj, hun,
    hprocs, hnet⟩
  · exact h.aborted hab (hnet h.segs)
  · refine h.update hj hprocs (fun ip => ?_) (fun hc => by cases hc) (fun hc => by cases hc)
      fun fd f hf => ?_
    · rw [hnet (h.files i) ip, procRefs_of_unused hun, procRefs_of_live (by rintro ⟨⟩)]
      simp only [newChild, childOf]
      ring
    · simp only [newChild, childOf] at hf
      split at hf
      · exact h.files i fd f hf
      · exact h.files j fd f hf

/-- **`freeproc`** of a zombie drops the references of its segments. -/
theorem RefInv.freeproc (h : RefInv k) (hz : (k.procs i).state = .zombie)
    (hrun : Xv6.freeproc i k = .ok ((), k')) : RefInv k' := by
  have hf := freeproc_effect hrun
  have hlive : (k.procs i).state ≠ .unused := by rw [hz]; decide
  refine h.update (h.lt hlive) hf.procs (fun ip => ?_)
    (fun _ j => by simp [freedProc, cleanupSwapFile, clearSegs]) (fun hc => by cases hc) (h.files i)
  rw [hf.net, procRefs_of_live hlive, procRefs_of_unused rfl, h.zombies i hz, owns_none]
  ring

/-! ## `exec` -/

/-- The headers that `exec` records in the process before it returns. -/
def recordedHdrs (fs : Fs) (ip : Nat) (m : Mem) (tf : Frame) : List ProgHdr :=
  match elfHdrOf (fs.content ip), procPagetable tf m with
  | some hdr, .ok (some _, _) => (scanHdrs (fs.content ip) hdr.phnum hdr.phoff 0).1
  | _, _ => []

/-- `exec` has what it needs to succeed: good headers, memory for the page table and the stack page,
and arguments that fit on it. -/
def ExecFits (fs : Fs) (ip : Nat) (argv : List (List UInt8)) (m : Mem) (tf : Frame) : Prop :=
  ∃ hdr l, elfHdrOf (fs.content ip) = some hdr ∧
    scanHdrs (fs.content ip) hdr.phnum hdr.phoff 0 = (l, true) ∧ StackMapped m tf (stackBase l) ∧
    stackImage (stackBase l) (stackBase l + pgSize) argv ≠ none

/-- **The entries that `exec` overwrites make up for the references it takes**: of the first `n`
entries, `taken` point nowhere, and the others to the executable already. -/
structure Exchanged (p : Proc) (ip n taken : Nat) : Prop where
  same : ∀ j : Fin 16, j.val < n → (p.lazySegs j).ip = none ∨ (p.lazySegs j).ip = some ip
  fresh : (Finset.univ.filter fun j : Fin 16 => j.val < n ∧ (p.lazySegs j).ip = none).card = taken

/-- Then the segments hold `taken` references more than before. -/
theorem Exchanged.segRefs {l : List ProgHdr} {taken : Nat} (h : Exchanged p ip l.length taken)
    (x : Nat) :
    segRefs (setSegs p.lazySegs ip 0 l) x = segRefs p.lazySegs x + taken * owns (some ip) x := by
  have hterm : ∀ j : Fin 16, owns (setSegs p.lazySegs ip 0 l j).ip x = owns (p.lazySegs j).ip x +
      if j.val < l.length ∧ (p.lazySegs j).ip = none then owns (some ip) x else 0 := by
    intro j
    simp only [setSegs, Nat.zero_le, if_true, Nat.sub_zero]
    by_cases hj : j.val < l.length
    · rw [List.getElem?_eq_getElem hj]
      rcases h.same j hj with hnone | hsome
      · simp [hnone, hj, ProgHdr.seg]
      · simp [hsome, ProgHdr.seg]
    · rw [List.getElem?_eq_none (by omega)]
      simp [hj]
  unfold Xv6.segRefs
  rw [Finset.sum_congr rfl fun j _ => hterm j, Finset.sum_add_distrib, ← Finset.sum_filter,
    Finset.sum_const, h.fresh, nsmul_eq_mul]

/-- What becomes of the segments, by outcome; and when `exec` succeeds. -/
theorem ExecOut.segs {argv : List (List UInt8)} {r : Int}
    (out : ExecOut fs ip argv t root tf o r t') :
    t'.p.lazySegs = setSegs t.p.lazySegs ip 0 (recordedHdrs fs ip t.mem tf) ∧
      t'.p.cwd = t.p.cwd ∧ t'.p.ofile = t.p.ofile ∧ t'.p.state = t.p.state ∧
      (0 ≤ r ↔ ExecFits fs ip argv t.mem tf) := by
  have hlate : ∀ {hdr : ElfHdr} {l : List ProgHdr} {through : Bool} {new : Frame} {m₁ : Mem},
      elfHdrOf (fs.content ip) = some hdr →
      scanHdrs (fs.content ip) hdr.phnum hdr.phoff 0 = (l, through) →
      procPagetable tf t.mem = .ok (some new, m₁) → recordedHdrs fs ip t.mem tf = l := by
    intro hdr l through new m₁ helf hscan htable
    rw [recordedHdrs, helf, htable]
    dsimp only
    rw [hscan]
  cases out with
  | noElf bad =>
    have hl : recordedHdrs fs ip t.mem tf = [] := by rw [recordedHdrs, bad]
    rw [hl, setSegs_nil]
    refine ⟨rfl, rfl, rfl, rfl, iff_of_false (by decide) ?_⟩
    rintro ⟨hdr, l, helf, -⟩
    rw [bad] at helf
    cases helf
  | noTable elf table acts =>
    have hl : recordedHdrs fs ip t.mem tf = [] := by rw [recordedHdrs, elf, table]
    rw [hl, setSegs_nil]
    refine ⟨rfl, rfl, rfl, rfl, iff_of_false (by decide) ?_⟩
    rintro ⟨hdr, l, -, -, ⟨new, m₁, htable, -⟩, -⟩
    rw [table] at htable
    cases htable
  | bad elf scan table acts why =>
    obtain ⟨new, m₁, htable⟩ := table
    rw [hlate elf scan htable]
    refine ⟨rfl, rfl, rfl, rfl, iff_of_false (by decide) ?_⟩
    rintro ⟨hdr, l, helf, hscan, hmapped, -⟩
    obtain rfl := Option.some.inj (helf.symm.trans elf)
    obtain ⟨rfl, rfl⟩ := Prod.mk.inj (hscan.symm.trans scan)
    exact why rfl hmapped
  | noRoom elf scan base room mapped acts =>
    obtain ⟨new, m₁, htable, -⟩ := mapped
    rw [hlate elf scan htable]
    refine ⟨rfl, rfl, rfl, rfl, iff_of_false (by decide) ?_⟩
    rintro ⟨hdr, l, helf, hscan, -, himg⟩
    obtain rfl := Option.some.inj (helf.symm.trans elf)
    obtain ⟨rfl, -⟩ := Prod.mk.inj (hscan.symm.trans scan)
    exact himg room
  | done elf scan base image space disjoint acts stack empty fresh mapped =>
    obtain ⟨new, m₁, htable, hframe⟩ := mapped
    rw [hlate elf scan htable]
    exact ⟨rfl, rfl, rfl, rfl, iff_of_true (by omega)
      ⟨_, _, elf, scan, ⟨new, m₁, htable, hframe⟩, by rw [image]; exact Option.some_ne_none _⟩⟩

/-- **The references that `exec` takes**: one by `namei`, and one more when it succeeds. -/
theorem exec_effect {path : List UInt8} {argv : List (List UInt8)} {r : Int}
    (hrun : exec i path argv k = .ok (r, k')) :
    Moves (fun _ => 0) k k' ∨ ∃ ip k₁ t, Opened k i path ip k₁ ∧
      execImage k₁.fs ip argv (k.task i) = .ok (r, t) ∧ k'.procs = Function.update k.procs i t.p ∧
      ∀ x, net k' x = net k x + (if 0 ≤ r then 2 else 1) * owns (some ip) x := by
  unfold exec at hrun
  obtain ⟨oip, k₀, hnamei, hrun⟩ := Halting.bind_eq_ok.mp hrun
  have h₀ := namei_moves hnamei
  cases oip with
  | none =>
    obtain ⟨-, rfl⟩ := Halting.pure_eq_ok.mp hrun
    exact Or.inl (h₀.congr fun _ => rfl)
  | some ip =>
    obtain ⟨_, k₁, hlock, hrun⟩ := Halting.bind_eq_ok.mp hrun
    have h₁ := h₀.trans (ilockInode_moves hlock)
    obtain ⟨r', k₂, hon, hrun⟩ := Halting.bind_eq_ok.mp hrun
    obtain ⟨t, himage, rfl⟩ := onTask_eq_ok.mp hon
    have hk₁ : k₁.task i = k.task i := by
      rw [Kernel.task, h₁.mem, h₁.procs]
      rfl
    rw [hk₁] at himage
    refine Or.inr ⟨ip, k₁, t, ⟨h₁.mem, h₁.procs, k₀, hnamei, hlock⟩, ?_⟩
    have hset : ∀ x, net (k₁.setTask i t) x = net k x + owns (some ip) x := fun x => by
      refine (h₁.net x).trans ?_
      simp
    have hprocs : (k₁.setTask i t).procs = Function.update k.procs i t.p := by
      simp only [Kernel.setTask, h₁.procs]
    split at hrun
    · next hpos =>
      obtain ⟨_, k₃, hdup, hrun⟩ := Halting.bind_eq_ok.mp hrun
      obtain ⟨_, k₄, hun, hrun⟩ := Halting.bind_eq_ok.mp hrun
      obtain ⟨rfl, rfl⟩ := Halting.pure_eq_ok.mp hrun
      have h₄ := (idup_moves hdup).trans (iunlock_moves hun)
      refine ⟨himage, h₄.procs.trans hprocs, fun x => ?_⟩
      rw [h₄.net x, hset x, if_pos hpos]
      ring
    · next hneg =>
      obtain ⟨_, k₄, hun, hrun⟩ := Halting.bind_eq_ok.mp hrun
      obtain ⟨rfl, rfl⟩ := Halting.pure_eq_ok.mp hrun
      have h₄ := iunlock_moves hun
      refine ⟨himage, h₄.procs.trans hprocs, fun x => ?_⟩
      rw [h₄.net x, hset x, if_neg hneg]
      ring

/-- **The condition on a step**: an `exec` that finds its file overwrites two entries that point
nowhere when it can succeed, one when it cannot, and otherwise only entries of the same inode. -/
def RefsKept (k : Kernel) : Event → Prop
  | .act i (.exec path argv) => ∀ ip k₁ tf, Opened k i path ip k₁ →
      (k.procs i).trapframe = some tf → (ExecFits k₁.fs ip argv k.mem tf →
        Exchanged (k.procs i) ip (recordedHdrs k₁.fs ip k.mem tf).length 2) ∧
      (¬ ExecFits k₁.fs ip argv k.mem tf →
        Exchanged (k.procs i) ip (recordedHdrs k₁.fs ip k.mem tf).length 1)
  | _ => True

/-- **`exec`** keeps the counts when the condition is met. -/
theorem RefInv.exec {path : List UInt8} {argv : List (List UInt8)} {r : Int} (h : RefInv k)
    (hinv : SysInv k own) (hr : (k.procs i).state = .runnable) (hargv : ArgvOk argv)
    (hc : RefsKept k (.act i (.exec path argv))) (hrun : Xv6.exec i path argv k = .ok (r, k')) :
    RefInv k' := by
  have hlive : (k.procs i).state ≠ .unused := by rw [hr]; decide
  obtain ⟨root, tf, o, hroot, ho, htf, htask⟩ := hinv.runnable hr
  rcases exec_effect hrun with hmove | ⟨ip, k₁, t, hop, himage, hprocs, hnet⟩
  · exact h.congr (fun j => by rw [hmove.procs]; exact SameRefs.refl _) fun ip => by
      rw [hmove.net, add_zero]
  · obtain ⟨hsegs, hcwd, hofile, hstate, hfits⟩ := (execImage_spec hargv htask himage).segs
    obtain ⟨hsucc, hfail⟩ := hc ip k₁ tf hop htask.trapframe
    have hlive' : t.p.state ≠ .unused := by rw [hstate]; exact hlive
    refine h.update (h.lt hlive) hprocs (fun x => ?_) (fun hu => absurd hu hlive')
      (fun hz => ?_) fun fd f hf => h.files i fd f (hofile ▸ hf)
    · have hex : segRefs t.p.lazySegs x = segRefs (k.procs i).lazySegs x +
          (if 0 ≤ r then 2 else 1) * owns (some ip) x := by
        rw [hsegs]
        split
        · next hpos => exact (hsucc (hfits.mp hpos)).segRefs x
        · next hneg => exact (hfail (mt hfits.mpr hneg)).segRefs x
      rw [hnet x, procRefs_of_live hlive, procRefs_of_live hlive', hex, hcwd]
      show _ = net k x - (owns (k.procs i).cwd x + _) + (owns (k.procs i).cwd x + _)
      ring
    · rw [hstate] at hz
      exact absurd (hr.symm.trans hz) (by decide)

/-! ## Runs -/

/-- What the rest of the kernel does to files and directories is in balance: it takes a reference
for every holder it makes, and drops one for every holder it removes. -/
structure FsBalanced (k k' : Kernel) : Prop where
  refs : ∀ ip, (k'.fs.itable ip).ref - holders k' ip = (k.fs.itable ip).ref - holders k ip
  zombies : ∀ i, (k.procs i).state = .zombie → (k'.procs i).cwd = (k.procs i).cwd
  files : ∀ i, FilesOk (k'.procs i)

/-- The steps of the system, with the rest of the kernel in balance. -/
def RefStep (k : Kernel) (e : Event) (k' : Kernel) : Prop :=
  Step k e k' ∧ (e = .others → FsBalanced k k')

theorem RefInv.others (h : RefInv k) (ho : Others k k') (hf : FsBalanced k k') : RefInv k' where
  balanced ip := by
    have hrefs := hf.refs ip
    have hb := h.balanced ip
    simp only [holders, net] at *
    omega
  slots i hi := by
    obtain ⟨_, _, hp⟩ := ho.procs i
    rw [hp]
    exact h.slots i hi
  segs i hi := by
    obtain ⟨_, _, hp⟩ := ho.procs i
    rw [hp] at hi ⊢
    exact h.segs i hi
  zombies i hi := by
    obtain ⟨_, _, hp⟩ := ho.procs i
    have hz : (k.procs i).state = .zombie := by rwa [hp] at hi
    rw [hf.zombies i hz]
    exact h.zombies i hz
  files := hf.files

/-- **A step that meets the condition** keeps the counts. -/
theorem RefInv.next {e : Event} (h : RefInv k) (hinv : SysInv k own) (hc : RefsKept k e)
    (hstep : RefStep k e k') : RefInv k' := by
  obtain ⟨hstep, hfs⟩ := hstep
  cases hstep with
  | others change => exact h.others change (hfs rfl)
  | act hr does =>
    rename_i i a
    have hlive : (k.procs i).state ≠ .unused := by rw [hr]; decide
    obtain ⟨root, tf, o, hroot, ho, htf, htask⟩ := hinv.runnable hr
    cases does with
    | fault run =>
      obtain ⟨r, k₁, hon, run⟩ := Halting.bind_eq_ok.mp run
      obtain ⟨t, hf, rfl⟩ := onTask_eq_ok.mp hon
      obtain ⟨o', hts⟩ := TaskStep.fault htask hf
      -- The fault takes and gives back no reference; only the exit of a killed process does.
      have h₁ := h.setTask hts.image.sameRefs
      split at run
      · obtain ⟨-, rfl⟩ := Halting.pure_eq_ok.mp run
        exact h₁
      · obtain ⟨_, k₂, hup, run⟩ := Halting.bind_eq_ok.mp run
        have h₂ := h₁.updProc hup fun p => ⟨rfl, rfl, rfl, rfl⟩
        refine h₂.kexit ?_ run
        rw [updProc_apply] at hup
        cases hup
        simp only [Function.update_self, Kernel.setTask]
        rw [hts.image.state]
        exact hlive
    | store run => exact h.setTask (TaskStep.store htask run).image.sameRefs
    | copyin run =>
      obtain ⟨t, hrun, rfl⟩ := onTask_eq_ok.mp run
      rw [Halting.bind_of_ok (pagetableOf_apply hroot)] at hrun
      obtain ⟨o', hts⟩ := TaskStep.copyin htask hrun
      exact h.setTask hts.image.sameRefs
    | copyout run =>
      obtain ⟨t, hrun, rfl⟩ := onTask_eq_ok.mp run
      rw [Halting.bind_of_ok (pagetableOf_apply hroot)] at hrun
      obtain ⟨o', hts⟩ := TaskStep.copyout htask hrun
      exact h.setTask hts.image.sameRefs
    | sbrk int run =>
      obtain ⟨t, hrun, rfl⟩ := onTask_eq_ok.mp run
      obtain ⟨o', htask', hacts, hgrow⟩ := htask.growproc hrun
      refine h.setTask ?_
      cases hgrow <;> exact ⟨rfl, rfl, rfl, rfl⟩
    | fork run => exact h.kfork hr run
    | exec argvOk run => exact h.exec hinv hr argvOk hc run
    | exit run => exact h.kexit hlive run
    | wait run =>
      obtain ⟨k₁, own₁, hs, hother, hwhich, hk⟩ := kwait_spec hinv hr run
      have h₁ : RefInv k₁ := by
        rcases hwhich with rfl | ⟨root', rc, t, src, hroot', -, -, hout, rfl⟩
        · exact h
        · obtain rfl := Option.some.inj (hroot.symm.trans hroot')
          obtain ⟨o', hts⟩ := TaskStep.copyout htask hout
          exact h.setTask hts.image.sameRefs
      -- A child that is reaped was a zombie and had given back all it had.
      rcases hk with ⟨-, rfl⟩ | ⟨j, hji, hz, -, -, hfree⟩
      · exact h₁
      · refine h₁.freeproc ?_ hfree
        rw [(hother j hji).2]
        exact hz

/-- After `userinit` the one reference is to the root directory, by the first process. -/
theorem Boot.refInv {k₀ k₁ : Kernel} (hb : Boot k₀) (hrun : userinit k₀ = .ok ((), k₁)) :
    RefInv k₁ := by
  have h₀ : RefInv k₀ := by
    refine ⟨fun ip => ?_, fun i _ => ?_, fun i _ j => ?_, fun i hi => ?_, fun i fd f hf => ?_⟩
    · have hfile : ∀ f, fileRefs (k₀.ftable f) ip = 0 := fun f => by
        rw [fileRefs, hb.ftable]
        simp
      have hheld : held k₀.procs ip = 0 := Finset.sum_eq_zero fun i _ => by
        rw [hb.procs]
        rfl
      rw [hheld, net, (hb.itable ip).1, Finset.sum_eq_zero fun f _ => hfile f, sub_zero]
    · rw [hb.procs]
    · rw [hb.procs]
    · rw [hb.procs]
    · rw [hb.procs] at hf
      cases hf
  unfold userinit at hrun
  obtain ⟨oi, k₂, halloc, hrun⟩ := Halting.bind_eq_ok.mp hrun
  rcases allocproc_effect halloc with ⟨rfl, -⟩ | ⟨j, tf, root, rfl, hj, hun, hprocs, hnet⟩
  · cases hrun
  obtain ⟨_, k₃, hmod, hrun⟩ := Halting.bind_eq_ok.mp hrun
  cases hmod
  obtain ⟨r, k₄, hnamei, hrun⟩ := Halting.bind_eq_ok.mp hrun
  cases hrun
  have h₄ := namei_moves hnamei
  have hp₄ : k₄.procs = k₂.procs := h₄.procs
  refine h₀.update (p := { k₂.procs j with cwd := r, state := .runnable }) hj ?_ (fun ip => ?_)
    (fun hc => by cases hc) (fun hc => by cases hc) fun fd f hf => ?_
  · simp only [hp₄]
    rw [hprocs, Function.update_idem, Function.update_self]
  · refine (h₄.net ip).trans ?_
    have hseg : segRefs (k₂.procs j).lazySegs ip = 0 :=
      segRefs_eq_zero (fun s => by rw [hprocs, Function.update_self]; rfl) ip
    rw [procRefs_of_unused hun, procRefs_of_live (by rintro ⟨⟩), hseg]
    change net k₂ ip + _ = _
    rw [hnet ip]
    ring
  · rw [show ({ k₂.procs j with cwd := r, state := .runnable } : Proc).ofile =
      (k₂.procs j).ofile from rfl, hprocs, Function.update_self] at hf
    exact h₀.files j fd f hf

/-- **Reference counts equal the numbers of holders** in every state of every run from boot whose
steps meet the condition. So they are not negative, and an inode that no live process has among its
segments is down to its open files and directories. -/
theorem refs_balanced {k₀ k₁ : Kernel} {es : List Event} (hboot : Boot k₀)
    (hinit : userinit k₀ = .ok ((), k₁)) (hrun : Run.Meets RefStep RefsKept k₁ es k) (ip : Nat) :
    (k.fs.itable ip).ref = holders k ip ∧ 0 ≤ (k.fs.itable ip).ref ∧
      ((∀ i j, (k.procs i).state ≠ .unused → ((k.procs i).lazySegs j).ip ≠ some ip) →
        (k.fs.itable ip).ref = ∑ f ∈ range nFile, fileRefs (k.ftable f) ip +
          ∑ i ∈ range nProc, if (k.procs i).state = .unused then 0
          else owns (k.procs i).cwd ip) := by
  obtain ⟨_, _, own, hstep, -⟩ := userinit_spec hboot.sysInv hinit
  obtain ⟨h, -⟩ := Run.invariant_of_meets (I := fun k => RefInv k ∧ ∃ own, SysInv k own)
    (fun _ _ _ ⟨h, own, hinv⟩ hc hs => by
      obtain ⟨_, own', _, hs'⟩ := hinv.step hs.1
      exact ⟨h.next hinv hc hs, own', hs'.inv⟩) hrun ⟨hboot.refInv hinit, own, hstep.inv⟩
  have heq : (k.fs.itable ip).ref = holders k ip := by
    have hb := h.balanced ip
    simp only [holders, net] at *
    omega
  refine ⟨heq, heq ▸ holders_nonneg k ip, fun hnone => ?_⟩
  rw [heq, holders]
  congr 1
  refine Finset.sum_congr rfl fun i _ => ?_
  unfold procRefs
  split
  · rfl
  · next hlive =>
    have hseg : segRefs (k.procs i).lazySegs ip = 0 :=
      Finset.sum_eq_zero fun j _ => if_neg (hnone i j hlive)
    rw [hseg, add_zero]

/-! ## Runs on a small machine -/

instance (p : Proc) (ip n taken : Nat) : Decidable (Exchanged p ip n taken) :=
  decidable_of_iff ((∀ j : Fin 16, j.val < n → (p.lazySegs j).ip = none ∨
    (p.lazySegs j).ip = some ip) ∧
    (Finset.univ.filter fun j : Fin 16 => j.val < n ∧ (p.lazySegs j).ip = none).card = taken)
    ⟨fun h => ⟨h.1, h.2⟩, fun h => ⟨h.same, h.fresh⟩⟩

/-- The check that `exec` has what it needs to succeed. -/
def fitsCheck (fs : Fs) (ip : Nat) (argv : List (List UInt8)) (m : Mem) (tf : Frame) : Bool :=
  match elfHdrOf (fs.content ip), procPagetable tf m with
  | some hdr, .ok (some new, m₁) =>
    match scanHdrs (fs.content ip) hdr.phnum hdr.phoff 0, kalloc m₁ with
    | (l, true), .ok (some f, m₂) =>
      (stackImage (stackBase l) (stackBase l + pgSize) argv).isSome &&
        match mappages new (stackBase l) pgSize f { r := true, w := true, u := true }
            (m₂.setPage f (PhysPage.fill 0)) with
        | .ok (r, _) => r == 0
        | .error _ => false
    | _, _ => false
  | _, _ => false

theorem execFits_of_fitsCheck {argv : List (List UInt8)} (h : fitsCheck fs ip argv m tf = true) :
    ExecFits fs ip argv m tf := by
  unfold fitsCheck at h
  split at h
  · next hdr new m₁ helf htable =>
    split at h
    · next l f m₂ hscan hk =>
      rw [Bool.and_eq_true] at h
      obtain ⟨himg, hmap⟩ := h
      split at hmap
      · next r m₃ hm =>
        obtain rfl := beq_iff_eq.mp hmap
        exact ⟨hdr, l, helf, hscan, ⟨new, m₁, htable, f, m₂, m₃, hk, hm⟩,
          Option.isSome_iff_ne_none.mp himg⟩
      · cases hmap
    · cases h
  · cases h

/-- The check that an `exec` can succeed and overwrites two entries that point nowhere. -/
def refsCheck (k : Kernel) : Event → Bool
  | .act i (.exec path argv) =>
    match namei i path k with
    | .ok (some ip, k₀) =>
      match ilockInode i ip k₀, (k.procs i).trapframe with
      | .ok (_, k₁), some tf => fitsCheck k₁.fs ip argv k.mem tf &&
          decide (Exchanged (k.procs i) ip (recordedHdrs k₁.fs ip k.mem tf).length 2)
      | _, _ => false
    | _ => false
  | .act _ _ => true
  | .others => false

theorem refsKept_of_refsCheck (k : Kernel) (e : Event) (h : refsCheck k e = true) :
    RefsKept k e ∧ e ≠ .others := by
  unfold refsCheck at h
  split at h
  · next i path argv =>
    refine ⟨fun ip k₁ tf hop htf => ?_, by rintro ⟨⟩⟩
    obtain ⟨k₀, hnamei, hlock⟩ := hop.found
    rw [hnamei] at h
    dsimp only at h
    rw [hlock, htf] at h
    dsimp only at h
    rw [Bool.and_eq_true, decide_eq_true_eq] at h
    exact ⟨fun _ => h.2, fun hno => absurd (execFits_of_fitsCheck h.1) hno⟩
  · next i a hne =>
    refine ⟨?_, by rintro ⟨⟩⟩
    cases a with
    | exec path argv => exact absurd rfl (hne path argv)
    | fault | store | copyin | copyout | sbrk | fork | exit | wait => trivial
  · cases h

set_option maxRecDepth 100000 in
/-- A child executes a program with two segments, exits and is reaped: the run meets the condition,
and no reference to the program is left. -/
theorem refs_balanced_reaped : ∃ k₁ es k, Run.Meets RefStep RefsKept k₁ es k ∧
    (k.fs.itable 1).inum = 2 ∧ (k.fs.itable 1).ref = holders k 1 := by
  have hsome : (((okState (userinit (machine 60 [smallProgram]))).bind (runActs refsCheck
      [(0, .fork), (1, .exec [47, 97] [[97]]), (1, .exit 0), (0, .wait 0)])).map
      fun k => (k.fs.itable 1).inum) = some 2 := by decide +kernel
  obtain ⟨k, hk, hinum⟩ := Option.map_eq_some_iff.mp hsome
  obtain ⟨k₁, hinit, hacts⟩ := Option.bind_eq_some_iff.mp hk
  obtain ⟨_, hinit⟩ := okState_eq_some hinit
  obtain ⟨es, hrun⟩ := meets_of_runActs refsKept_of_refsCheck _ (Run.Meets.nil k₁) hacts
  have hrun' : Run.Meets RefStep RefsKept k₁ es k :=
    hrun.imp (fun _ _ _ hc hs => ⟨hs, fun he => absurd he hc.2⟩) fun _ _ hc => hc.1
  exact ⟨k₁, es, k, hrun', hinum, (refs_balanced (machine_boot (by decide) _) hinit hrun' 1).1⟩

/-- A program with three segments. -/
def threeSegments : List UInt8 :=
  elfFile [progHdrBytes 5 0 0 0x1000 0x1000, progHdrBytes 6 0x1000 0x1000 0x1000 0x1000,
    progHdrBytes 6 0x2000 0x2000 0x1000 0x1000]

/-- A child executes a program with three segments, exits and is reaped. -/
@[irreducible] def afterReap : Kernel := stateAfter (machine 60 [threeSegments])
  [(0, .fork), (1, .exec [47, 97] [[97]]), (1, .exit 0), (0, .wait 0)]

set_option maxRecDepth 100000 in
theorem afterReap_reachable : Reachable afterReap := by
  unfold afterReap
  exact reachable_of_stateAfter (machine_boot (by decide) _) (by decide +kernel)

set_option maxRecDepth 100000 in
/-- **A reference count below zero**: `exec` took two references for the three entries
that `freeproc` drops. -/
theorem exec_drops_ref : Reachable afterReap ∧ (afterReap.fs.itable 1).ref = -1 ∧
    (afterReap.fs.itable 1).ref ≠ holders afterReap 1 := by
  have href : (afterReap.fs.itable 1).ref = -1 := by decide +kernel
  refine ⟨afterReap_reachable, href, fun hc => ?_⟩
  have := holders_nonneg afterReap 1
  omega

end Xv6
