import Mathlib.Algebra.BigOperators.Fin
import Mathlib.Tactic.Ring
import OsnMp2.Kernel.Fork

/-!
# References to inodes, and what the system calls do to them

The reference count of an in-memory inode, less the open files that point to it, is what the
processes hold of it: the current directory and the entries of `lazy_segs`. This module says for
every function of the kernel how that difference changes, and what it does to the process table.

## Main definitions

* `net`: the references of an inode that no open file holds
* `Moves d`: a computation that leaves the processes alone and changes `net` by `d`
* `freedProc`: the process that `freeproc` leaves

## Main results

* `namei_moves`, `fileclose_moves`, `dupSegs_moves`: the functions on inodes and files
* `freeproc_effect`, `kexit_effect`, `allocproc_effect`, `kfork_effect`: the functions on processes
-/

namespace Xv6

open Finset (range)

variable {k k' k'' : Kernel} {i ip : Nat} {d d' : Nat → Int}

/-- `NFILE`. -/
abbrev nFile : Nat := 100

/-! ## Counting -/

/-- Whether a pointer to an inode points to `ip`, as a number. -/
def owns (o : Option Nat) (ip : Nat) : Int := if o = some ip then 1 else 0

@[simp] theorem owns_none (ip : Nat) : owns none ip = 0 := rfl

/-- How many entries of `lazy_segs` point to `ip`. -/
def segRefs (segs : Fin 16 → LazySeg) (ip : Nat) : Int := ∑ j, owns (segs j).ip ip

/-- Whether an open file structure points to `ip`, as a number. -/
def fileRefs (f : File) (ip : Nat) : Int :=
  if 0 < f.ref ∧ (f.type = .inode ∨ f.type = .device) ∧ f.ip = ip then 1 else 0

/-- The references to `ip` that are not those of open files. -/
def net (k : Kernel) (ip : Nat) : Int :=
  (k.fs.itable ip).ref - ∑ f ∈ range nFile, fileRefs (k.ftable f) ip

/-! ## Functions on inodes -/

/-- The processes and memory are as they were, and `net` has changed by `d`. -/
structure Moves (d : Nat → Int) (k k' : Kernel) : Prop where
  mem : k'.mem = k.mem
  procs : k'.procs = k.procs
  net : ∀ ip, net k' ip = net k ip + d ip

theorem Moves.refl (k : Kernel) : Moves (fun _ => 0) k k := ⟨rfl, rfl, fun _ => (add_zero _).symm⟩

theorem Moves.trans (h : Moves d k k') (h' : Moves d' k' k'') :
    Moves (fun ip => d ip + d' ip) k k'' :=
  ⟨h'.mem.trans h.mem, h'.procs.trans h.procs, fun ip => by rw [h'.net, h.net, add_assoc]⟩

theorem Moves.congr (h : Moves d k k') (hd : ∀ ip, d ip = d' ip) : Moves d' k k' :=
  ⟨h.mem, h.procs, fun ip => by rw [h.net, hd]⟩

/-- A change of one in-memory inode. -/
theorem moves_updInode {f : Inode → Inode} {n : Int}
    (hf : (f (k.fs.itable ip)).ref = (k.fs.itable ip).ref + n)
    (hrun : updInode ip f k = .ok ((), k')) : Moves (fun x => n * owns (some ip) x) k k' := by
  cases hrun
  refine ⟨rfl, rfl, fun x => ?_⟩
  by_cases hx : x = ip
  · subst hx
    simp only [net, Function.update_self, hf, owns, if_true]
    ring
  · simp [net, owns, hx, Ne.symm hx]

theorem idup_moves (hrun : idup ip k = .ok ((), k')) : Moves (owns (some ip)) k k' :=
  (moves_updInode (n := 1) rfl hrun).congr fun _ => one_mul _

theorem iput_moves (hrun : iput ip k = .ok ((), k')) : Moves (fun x => -owns (some ip) x) k k' := by
  unfold iput at hrun
  rw [Halting.bind_of_ok (Halting.get_apply _)] at hrun
  split at hrun
  · obtain ⟨_, k₁, hdisk, hrun⟩ := Halting.bind_eq_ok.mp hrun
    cases hdisk
    obtain ⟨_, k₂, hfree, hrun⟩ := Halting.bind_eq_ok.mp hrun
    have h₂ := (moves_updInode (n := 0) (by exact (add_zero _).symm) hfree).trans
      (moves_updInode (n := -1) rfl hrun)
    exact ⟨h₂.mem, h₂.procs, fun x => (h₂.net x).trans (congrArg (Xv6.net k x + ·) (by simp))⟩
  · exact (moves_updInode (n := -1) rfl hrun).congr fun _ => neg_one_mul _

/-- `iget` takes a reference to the inode it returns. -/
theorem iget_moves {inum s : Nat} (hrun : iget inum k = .ok (s, k')) :
    Moves (owns (some s)) k k' := by
  unfold iget at hrun
  rw [Halting.bind_of_ok (Halting.get_apply _)] at hrun
  cases hused : (List.range nInode).find? fun s =>
      decide (0 < (k.fs.itable s).ref) && (k.fs.itable s).inum == inum with
  | some s' =>
    rw [hused] at hrun
    obtain ⟨_, k₁, hup, hrun⟩ := Halting.bind_eq_ok.mp hrun
    obtain ⟨rfl, rfl⟩ := Halting.pure_eq_ok.mp hrun
    exact (moves_updInode (n := 1) rfl hup).congr fun _ => one_mul _
  | none =>
    rw [hused] at hrun
    dsimp only at hrun
    cases hfree : (List.range nInode).find? fun s => (k.fs.itable s).ref == 0 with
    | some s' =>
      rw [hfree] at hrun
      obtain ⟨_, k₁, hup, hrun⟩ := Halting.bind_eq_ok.mp hrun
      obtain ⟨rfl, rfl⟩ := Halting.pure_eq_ok.mp hrun
      have hzero : (k.fs.itable s').ref = 0 := by simpa using List.find?_some hfree
      exact (moves_updInode (n := 1) (by rw [hzero]; rfl) hup).congr fun _ => one_mul _
    | none =>
      rw [hfree] at hrun
      cases hrun

theorem ilockInode_moves (hrun : ilockInode i ip k = .ok ((), k')) : Moves (fun _ => 0) k k' := by
  unfold ilockInode at hrun
  rw [Halting.bind_of_ok (Halting.get_apply _)] at hrun
  cases hlock : ilock k.fs (some ip) with
  | error e =>
    rw [hlock] at hrun
    cases hrun
  | ok u =>
    rw [hlock] at hrun
    exact (moves_updInode (n := 0) (by exact (add_zero _).symm) hrun).congr fun _ => zero_mul _

theorem iunlock_moves (hrun : iunlock i ip k = .ok ((), k')) : Moves (fun _ => 0) k k' := by
  unfold iunlock at hrun
  rw [Halting.bind_of_ok (Halting.get_apply _)] at hrun
  split at hrun
  · cases hrun
  · exact (moves_updInode (n := 0) (by exact (add_zero _).symm) hrun).congr fun _ => zero_mul _

theorem dirlookup_moves {dp : Nat} {name : Name} {r : Option Nat}
    (hrun : dirlookup dp name k = .ok (r, k')) : Moves (owns r) k k' := by
  unfold dirlookup at hrun
  rw [Halting.bind_of_ok (Halting.get_apply _)] at hrun
  split at hrun
  · cases hrun
  · cases hfind : (k.fs.itable dp).dinode.dirents.find? fun e => e.2 != 0 && e.1 == name with
    | none =>
      rw [hfind] at hrun
      obtain ⟨rfl, rfl⟩ := Halting.pure_eq_ok.mp hrun
      exact (Moves.refl k).congr fun _ => rfl
    | some e =>
      rw [hfind] at hrun
      obtain ⟨s, k₁, hget, hrun⟩ := Halting.bind_eq_ok.mp hrun
      obtain ⟨rfl, rfl⟩ := Halting.pure_eq_ok.mp hrun
      exact iget_moves hget

/-- **The loop of `namex`** exchanges the reference to the directory for one to the inode found. -/
theorem namexLoop_moves : ∀ names {ip : Nat} {r : Option Nat} {k k' : Kernel},
    namexLoop i names ip k = .ok (r, k') → Moves (fun x => owns r x - owns (some ip) x) k k' := by
  intro names
  induction names with
  | nil =>
    intro ip r k k' hrun
    obtain ⟨rfl, rfl⟩ := Halting.pure_eq_ok.mp hrun
    exact (Moves.refl k).congr fun _ => (sub_self _).symm
  | cons name rest ih =>
    intro ip r k k' hrun
    rw [namexLoop] at hrun
    obtain ⟨_, k₁, hlock, hrun⟩ := Halting.bind_eq_ok.mp hrun
    have h₁ := ilockInode_moves hlock
    rw [Halting.bind_of_ok (Halting.get_apply _)] at hrun
    -- giving up: the directory is unlocked and its reference dropped
    have hfail : ∀ {k₂ : Kernel}, Moves (fun _ => 0) k k₂ →
        (do iunlock i ip; iput ip; pure none : K (Option Nat)) k₂ = .ok (r, k') →
        Moves (fun x => owns r x - owns (some ip) x) k k' := by
      intro k₂ h₂ hrun
      obtain ⟨_, k₃, hun, hrun⟩ := Halting.bind_eq_ok.mp hrun
      obtain ⟨_, k₄, hput, hrun⟩ := Halting.bind_eq_ok.mp hrun
      obtain ⟨rfl, rfl⟩ := Halting.pure_eq_ok.mp hrun
      exact ((h₂.trans (iunlock_moves hun)).trans (iput_moves hput)).congr fun x => by simp
    split at hrun
    · exact hfail h₁ hrun
    · obtain ⟨o, k₂, hdir, hrun⟩ := Halting.bind_eq_ok.mp hrun
      have h₂ := h₁.trans (dirlookup_moves hdir)
      cases o with
      | none => exact hfail (h₂.congr fun _ => by simp) hrun
      | some next =>
        obtain ⟨_, k₃, hun, hrun⟩ := Halting.bind_eq_ok.mp hrun
        obtain ⟨_, k₄, hput, hrun⟩ := Halting.bind_eq_ok.mp hrun
        have h₄ := (h₂.trans (iunlock_moves hun)).trans (iput_moves hput)
        exact (h₄.trans (ih hrun)).congr fun x => by ring

/-- **`namei`** takes a reference to the inode it finds, and no other. -/
theorem namei_moves {path : List UInt8} {r : Option Nat} (hrun : namei i path k = .ok (r, k')) :
    Moves (owns r) k k' := by
  unfold namei at hrun
  split at hrun
  · obtain ⟨s, k₁, hget, hrun⟩ := Halting.bind_eq_ok.mp hrun
    exact ((iget_moves hget).trans (namexLoop_moves _ hrun)).congr fun x => by ring
  · obtain ⟨p, k₁, hget, hrun⟩ := Halting.bind_eq_ok.mp hrun
    cases hget
    cases hcwd : (k.procs i).cwd with
    | none =>
      rw [hcwd] at hrun
      cases hrun
    | some cwd =>
      rw [hcwd] at hrun
      obtain ⟨_, k₁, hdup, hrun⟩ := Halting.bind_eq_ok.mp hrun
      exact ((idup_moves hdup).trans (namexLoop_moves _ hrun)).congr fun x => by ring

/-- The loop of `kfork` over the segments takes a reference for each of them. -/
theorem dupSegs_moves (segs : Fin 16 → LazySeg) : ∀ l {k k' : Kernel},
    dupSegs segs l k = .ok ((), k') →
    Moves (fun x => (l.map fun j => owns (segs j).ip x).sum) k k' := by
  intro l
  induction l with
  | nil =>
    intro k k' hrun
    obtain ⟨-, rfl⟩ := Halting.pure_eq_ok.mp hrun
    exact Moves.refl k
  | cons j rest ih =>
    intro k k' hrun
    rw [dupSegs] at hrun
    cases hip : (segs j).ip with
    | none =>
      rw [hip] at hrun
      exact (ih hrun).congr fun x => by simp [hip]
    | some ip =>
      rw [hip] at hrun
      obtain ⟨_, k₁, hdup, hrun⟩ := Halting.bind_eq_ok.mp hrun
      exact ((idup_moves hdup).trans (ih hrun)).congr fun x => by simp [hip]

/-! ## Functions on files -/

/-- A change of one file structure. -/
theorem moves_updFile {f : Nat} {g : File → File} (hf : f < nFile) {n : Nat → Int}
    (hg : ∀ x, fileRefs (k.ftable f) x = fileRefs (g (k.ftable f)) x + n x)
    (hrun : updFile f g k = .ok ((), k')) : Moves n k k' := by
  cases hrun
  refine ⟨rfl, rfl, fun x => ?_⟩
  have hsum : ∀ h : Nat → File, ∑ f' ∈ range nFile, fileRefs (h f') x =
      fileRefs (h f) x + ∑ f' ∈ (range nFile).erase f, fileRefs (h f') x := fun h =>
    (Finset.add_sum_erase _ (fun f' => fileRefs (h f') x) (Finset.mem_range.mpr hf)).symm
  have hrest : ∑ f' ∈ (range nFile).erase f,
        fileRefs (Function.update k.ftable f (g (k.ftable f)) f') x =
      ∑ f' ∈ (range nFile).erase f, fileRefs (k.ftable f') x := by
    refine Finset.sum_congr rfl fun f' hf' => ?_
    rw [Function.update_of_ne (Finset.ne_of_mem_erase hf')]
  simp only [net]
  rw [hsum, hsum, hrest, Function.update_self, hg x]
  ring

/-- `filedup` opens no file: one that is not open panics. -/
theorem filedup_moves {f : Nat} (hf : f < nFile) (hrun : filedup f k = .ok ((), k')) :
    Moves (fun _ => 0) k k' := by
  unfold filedup at hrun
  rw [Halting.bind_of_ok (Halting.get_apply _)] at hrun
  split at hrun
  · cases hrun
  · next href =>
    refine moves_updFile hf (fun x => ?_) hrun
    simp only [fileRefs, add_zero]
    exact if_congr (by constructor <;> rintro ⟨-, h⟩ <;> exact ⟨by omega, h⟩) rfl rfl

theorem dupFiles_moves (files : Fin 16 → Option Nat)
    (hfiles : ∀ fd f, files fd = some f → f < nFile) :
    ∀ l {k k' : Kernel}, dupFiles files l k = .ok ((), k') → Moves (fun _ => 0) k k' := by
  intro l
  induction l with
  | nil =>
    intro k k' hrun
    obtain ⟨-, rfl⟩ := Halting.pure_eq_ok.mp hrun
    exact Moves.refl k
  | cons fd rest ih =>
    intro k k' hrun
    rw [dupFiles] at hrun
    cases hfd : files fd with
    | none =>
      rw [hfd] at hrun
      exact ih hrun
    | some f =>
      rw [hfd] at hrun
      obtain ⟨_, k₁, hdup, hrun⟩ := Halting.bind_eq_ok.mp hrun
      exact ((filedup_moves (hfiles fd f hfd) hdup).trans (ih hrun)).congr fun _ => add_zero 0

/-- **`fileclose`** drops the reference of the file it closes: the last one puts the inode. -/
theorem fileclose_moves {f : Nat} (hf : f < nFile) (hrun : fileclose f k = .ok ((), k')) :
    Moves (fun _ => 0) k k' := by
  unfold fileclose at hrun
  rw [Halting.bind_of_ok (Halting.get_apply _)] at hrun
  split at hrun
  · cases hrun
  next href =>
  split at hrun
  · refine moves_updFile hf (fun x => ?_) hrun
    simp only [fileRefs, add_zero]
    exact if_congr (by constructor <;> rintro ⟨-, h⟩ <;> exact ⟨by omega, h⟩) rfl rfl
  · obtain ⟨_, k₁, hup, hrun⟩ := Halting.bind_eq_ok.mp hrun
    have h₁ := moves_updFile hf (n := fileRefs (k.ftable f)) (fun x => by simp [fileRefs]) hup
    split at hrun
    · next htype =>
      refine (h₁.trans (iput_moves hrun)).congr fun x => ?_
      have hopen : (0 < (k.ftable f).ref ∧ ((k.ftable f).type = .inode ∨
        (k.ftable f).type = .device) ∧
          (k.ftable f).ip = x) ↔ some (k.ftable f).ip = some x := by
        rw [Option.some.injEq]
        exact ⟨fun h => h.2.2, fun h => ⟨by omega, htype, h⟩⟩
      simp [fileRefs, owns, hopen]
    · next htype =>
      obtain ⟨-, rfl⟩ := Halting.pure_eq_ok.mp hrun
      exact h₁.congr fun x => if_neg fun h => htype h.2.1

/-! ## Functions on processes -/

/-- The process table becomes `procs`, and `net` changes by `d`. -/
structure Effect (procs : Nat → Proc) (d : Nat → Int) (k k' : Kernel) : Prop where
  procs : k'.procs = procs
  net : ∀ ip, net k' ip = net k ip + d ip

/-- The entries in `l` point to no inode. -/
def clearSegs (l : List (Fin 16)) (segs : Fin 16 → LazySeg) (j : Fin 16) : LazySeg :=
  if j ∈ l then { segs j with ip := none } else segs j

theorem clearSegs_cons {j : Fin 16} {l : List (Fin 16)} (segs : Fin 16 → LazySeg) :
    clearSegs l (Function.update segs j { segs j with ip := none }) = clearSegs (j :: l) segs := by
  funext j'
  by_cases hj : j' = j
  · subst hj
    simp [clearSegs]
  · simp [clearSegs, hj]

/-- **The loop of `freeproc`** puts the inode of every entry. -/
theorem putSegs_effect : ∀ l {k k' : Kernel}, l.Nodup → putSegs i l k = .ok ((), k') →
    Effect (Function.update k.procs i { k.procs i with lazySegs := clearSegs l (k.procs
      i).lazySegs }) (fun x => -(l.map fun j => owns ((k.procs i).lazySegs j).ip x).sum) k k' := by
  intro l
  induction l with
  | nil =>
    intro k k' _ hrun
    obtain ⟨-, rfl⟩ := Halting.pure_eq_ok.mp hrun
    exact ⟨(Function.update_eq_self i k.procs).symm, fun x => by simp⟩
  | cons j rest ih =>
    intro k k' hnd hrun
    obtain ⟨hj, hrest⟩ := List.nodup_cons.mp hnd
    rw [putSegs] at hrun
    obtain ⟨p, k₁, hget, hrun⟩ := Halting.bind_eq_ok.mp hrun
    cases hget
    cases hip : ((k.procs i).lazySegs j).ip with
    | none =>
      rw [hip] at hrun
      obtain ⟨hprocs, hnet⟩ := ih hrest hrun
      refine ⟨?_, fun x => by rw [hnet x]; simp [hip]⟩
      rw [hprocs, ← clearSegs_cons]
      congr 3
      rw [show ({ (k.procs i).lazySegs j with ip := none } : LazySeg) = (k.procs i).lazySegs j by
        rw [← hip], Function.update_eq_self]
    | some ip =>
      rw [hip] at hrun
      obtain ⟨_, k₁, hput, hrun⟩ := Halting.bind_eq_ok.mp hrun
      obtain ⟨_, k₂, hup, hrun⟩ := Halting.bind_eq_ok.mp hrun
      rw [updProc_apply] at hup
      cases hup
      have hm := iput_moves hput
      obtain ⟨hprocs, hnet⟩ := ih hrest hrun
      refine ⟨?_, fun x => ?_⟩
      · rw [hprocs, hm.procs]
        simp only [Function.update_self, Function.update_idem]
        rw [clearSegs_cons]
      · rw [hnet x]
        have hsame : ∀ j' ∈ rest, owns (Function.update (k.procs i).lazySegs j
            { (k.procs i).lazySegs j with ip := none } j').ip x =
            owns ((k.procs i).lazySegs j').ip x := fun j' hj' => by
          have hne : j' ≠ j := fun hc => hj (hc ▸ hj')
          rw [Function.update_of_ne hne]
        have h₁ := hm.net x
        simp only [Function.update_self, hm.procs, List.map_congr_left hsame, List.map_cons,
          List.sum_cons, hip]
        change net k₁ x + _ = _
        rw [h₁]
        ring

/-- The process that `freeproc` leaves in its slot. -/
def freedProc (p : Proc) : Proc :=
  { cleanupSwapFile { p with
      trapframe := none, pagetable := none, sz := 0
      lazySegs := clearSegs (List.finRange 16) p.lazySegs } with
    pid := 0, parent := none, killed := false, xstate := 0, state := .unused }

theorem sum_finRange (f : Fin 16 → Int) : ((List.finRange 16).map f).sum = ∑ j, f j := by
  rw [Fin.sum_univ_def]

theorem onPhys_moves {α : Type} {x : VM α} {a : α} (hrun : onPhys x k = .ok (a, k')) :
    Effect k.procs (fun _ => 0) k k' := by
  obtain ⟨m, -, rfl⟩ := onPhys_eq_ok.mp hrun
  exact ⟨rfl, fun _ => (add_zero _).symm⟩

/-- What `freeproc` does once the trap frame is freed. -/
def freeTable (i : Nat) (table : Option Frame) (sz : Nat) : K Unit := do
  match table with
  | none => pure ()
  | some pagetable => onPhys (procFreepagetable pagetable sz)
  updProc i fun p => { p with trapframe := none, pagetable := none, sz := 0 }
  putSegs i (List.finRange 16)
  updProc i fun p => { cleanupSwapFile p with
    pid := 0, parent := none, killed := false, xstate := 0, state := .unused }

/-- **`freeproc`** drops the references of all segments, and clears the slot. -/
theorem freeproc_effect (hrun : freeproc i k = .ok ((), k')) :
    Effect (Function.update k.procs i (freedProc (k.procs i)))
      (fun x => -segRefs (k.procs i).lazySegs x) k k' := by
  unfold freeproc at hrun
  obtain ⟨p, k₀, hget, hrun⟩ := Halting.bind_eq_ok.mp hrun
  cases hget
  -- memory is freed: neither processes nor references change
  have hmem : ∃ k₂, Effect k.procs (fun _ => 0) k k₂ ∧
      (do updProc i fun p => { p with trapframe := none, pagetable := none, sz := 0 }
          putSegs i (List.finRange 16)
          updProc i fun p => { cleanupSwapFile p with
            pid := 0, parent := none, killed := false, xstate := 0, state := .unused } :
              K Unit) k₂ =
        .ok ((), k') := by
    have htable : ∀ {k₁ : Kernel}, Effect k.procs (fun _ => 0) k k₁ →
        freeTable i (k.procs i).pagetable (k.procs i).sz k₁ = .ok ((), k') →
        ∃ k₂, Effect k.procs (fun _ => 0) k k₂ ∧
        (do updProc i fun p => { p with trapframe := none, pagetable := none, sz := 0 }
            putSegs i (List.finRange 16)
            updProc i fun p => { cleanupSwapFile p with
              pid := 0, parent := none, killed := false, xstate := 0, state := .unused } :
                K Unit) k₂ =
          .ok ((), k') := by
      intro k₁ h₁ hrun
      cases hpt : (k.procs i).pagetable with
      | none =>
        rw [hpt] at hrun
        exact ⟨k₁, h₁, hrun⟩
      | some root =>
        rw [hpt] at hrun
        obtain ⟨_, k₂, hfree, hrun⟩ := Halting.bind_eq_ok.mp hrun
        have h₂ := onPhys_moves hfree
        exact ⟨k₂, ⟨h₂.procs.trans h₁.procs, fun x => by rw [h₂.net, h₁.net, add_zero]⟩, hrun⟩
    cases htf : (k.procs i).trapframe with
    | none =>
      rw [htf] at hrun
      exact htable ⟨rfl, fun _ => (add_zero _).symm⟩ hrun
    | some tf =>
      rw [htf] at hrun
      obtain ⟨_, k₁, hfree, hrun⟩ := Halting.bind_eq_ok.mp hrun
      exact htable (onPhys_moves hfree) hrun
  obtain ⟨k₂, h₂, hrun⟩ := hmem
  obtain ⟨_, k₃, hclear, hrun⟩ := Halting.bind_eq_ok.mp hrun
  rw [updProc_apply] at hclear
  cases hclear
  obtain ⟨_, k₄, hput, hrun⟩ := Halting.bind_eq_ok.mp hrun
  rw [updProc_apply] at hrun
  cases hrun
  have h₄ := putSegs_effect _ (List.nodup_finRange 16) hput
  refine ⟨?_, fun x => ?_⟩
  · dsimp only
    rw [h₄.procs]
    simp only [Function.update_self, Function.update_idem, h₂.procs]
    rfl
  · have hnet := h₄.net x
    simp only [Function.update_self, h₂.procs, sum_finRange] at hnet
    change net k₄ x = _
    rw [hnet]
    change net k₂ x + _ = _
    rw [h₂.net x, add_zero]
    rfl

/-- The files of a process are in the file table. -/
def FilesOk (p : Proc) : Prop := ∀ fd f, p.ofile fd = some f → f < nFile

/-- The loop of `kexit` closes files, and drops no reference but theirs. -/
theorem closeFiles_effect : ∀ l {k k' : Kernel}, closeFiles i l k = .ok ((), k') →
    ∃ files, (∀ fd f, files fd = some f → (k.procs i).ofile fd = some f) ∧
      k'.procs = Function.update k.procs i { k.procs i with ofile := files } ∧
      (FilesOk (k.procs i) → ∀ x, net k' x = net k x) := by
  intro l
  induction l with
  | nil =>
    intro k k' hrun
    obtain ⟨-, rfl⟩ := Halting.pure_eq_ok.mp hrun
    exact ⟨_, fun _ _ h => h, (Function.update_eq_self i k.procs).symm, fun _ _ => rfl⟩
  | cons fd rest ih =>
    intro k k' hrun
    rw [closeFiles] at hrun
    obtain ⟨p, k₁, hget, hrun⟩ := Halting.bind_eq_ok.mp hrun
    cases hget
    cases hfd : (k.procs i).ofile fd with
    | none =>
      rw [hfd] at hrun
      exact ih hrun
    | some f =>
      rw [hfd] at hrun
      obtain ⟨_, k₁, hclose, hrun⟩ := Halting.bind_eq_ok.mp hrun
      obtain ⟨_, k₂, hup, hrun⟩ := Halting.bind_eq_ok.mp hrun
      rw [updProc_apply] at hup
      cases hup
      have hp₁ := (fsOnly_fileclose f _ _ _ hclose).procs
      obtain ⟨files, hsub, hprocs, hnet⟩ := ih hrun
      simp only [Function.update_self, Function.update_idem, hp₁] at hsub hprocs hnet
      -- a descriptor that is closed stays closed
      have hof : ∀ fd' f', Function.update (k.procs i).ofile fd none fd' = some f' →
          (k.procs i).ofile fd' = some f' := by
        intro fd' f' hf'
        by_cases hc : fd' = fd
        · rw [hc, Function.update_self] at hf'
          cases hf'
        · rwa [Function.update_of_ne hc] at hf'
      refine ⟨files, fun fd' f' hf' => hof fd' f' (hsub fd' f' hf'), hprocs, fun hok x => ?_⟩
      rw [hnet (fun fd' f' hf' => hok fd' f' (hof fd' f' hf')) x]
      exact ((fileclose_moves (hok fd f hfd) hclose).net x).trans (add_zero _)

/-- **`kexit`** drops the current directory and the files of the process; its segments stay until it
is reaped. The parents of its children change. -/
theorem kexit_effect {status : Int} (hrun : kexit i status k = .ok ((), k')) :
    ∃ files, (∀ fd f, files fd = some f → (k.procs i).ofile fd = some f) ∧
      (∀ j, ∃ q, k'.procs j = { (if j = i then { k.procs i with
        ofile := files, cwd := none, xstate := status, state := .zombie } else k.procs j) with
          parent := q }) ∧
      (FilesOk (k.procs i) → ∀ x, net k' x = net k x - owns (k.procs i).cwd x) := by
  unfold kexit at hrun
  rw [Halting.bind_of_ok (Halting.get_apply _)] at hrun
  split at hrun
  · cases hrun
  obtain ⟨_, k₁, hclose, hrun⟩ := Halting.bind_eq_ok.mp hrun
  obtain ⟨files, hsub, hprocs, hnet⟩ := closeFiles_effect _ hclose
  obtain ⟨p, k₂, hget, hrun⟩ := Halting.bind_eq_ok.mp hrun
  cases hget
  have hcwd₁ : (k₁.procs i).cwd = (k.procs i).cwd := by rw [hprocs, Function.update_self]
  cases hcwd : (k.procs i).cwd with
  | none =>
    rw [hcwd₁, hcwd] at hrun
    cases hrun
  | some cwd =>
    rw [hcwd₁, hcwd] at hrun
    obtain ⟨_, k₂, hput, hrun⟩ := Halting.bind_eq_ok.mp hrun
    have h₂ := iput_moves hput
    obtain ⟨_, k₃, hup, hrun⟩ := Halting.bind_eq_ok.mp hrun
    rw [updProc_apply] at hup
    cases hup
    obtain ⟨_, k₄, hmod, hrun⟩ := Halting.bind_eq_ok.mp hrun
    cases hmod
    rw [updProc_apply] at hrun
    cases hrun
    refine ⟨files, hsub, fun j => ?_, fun hok x => ?_⟩
    · by_cases hj : j = i
      · subst hj
        simp only [Function.update_self, h₂.procs, hprocs, if_true]
        split <;> exact ⟨_, rfl⟩
      · simp only [Function.update_of_ne hj, h₂.procs, hprocs, if_neg hj]
        split
        · exact ⟨_, rfl⟩
        · exact ⟨(k.procs j).parent, rfl⟩
    · change net k₂ x = _
      rw [h₂.net x, hnet hok x]
      rfl

/-! ## Making processes -/

/-- A slot that was not in use and is not: it may have been allocated and freed again. -/
structure StaysIdle (p p' : Proc) : Prop where
  before : p.state = .unused
  after : p'.state = .unused
  cwd : p'.cwd = p.cwd
  ofile : p'.ofile = p.ofile
  segs : ∀ j, (p'.lazySegs j).ip = none

/-- No process has changed but slots that are not in use. -/
def Aborted (k k' : Kernel) : Prop :=
  ∀ j, k'.procs j = k.procs j ∨ StaysIdle (k.procs j) (k'.procs j)

/-- Slots that are not in use hold no segments. -/
def IdleSegs (k : Kernel) : Prop :=
  ∀ i, (k.procs i).state = .unused → ∀ j, ((k.procs i).lazySegs j).ip = none

theorem segRefs_eq_zero {segs : Fin 16 → LazySeg} (h : ∀ j, (segs j).ip = none) (x : Nat) :
    segRefs segs x = 0 := Finset.sum_eq_zero fun j _ => by rw [h j, owns_none]

/-- Freeing a slot that was taken for a new process. -/
theorem freeproc_aborted {j : Nat} {k₁ : Kernel} (hrun : freeproc j k₁ = .ok ((), k'))
    (hun : (k.procs j).state = .unused) (hother : ∀ l, l ≠ j → k₁.procs l = k.procs l)
    (hcwd : (k₁.procs j).cwd = (k.procs j).cwd) (hofile : (k₁.procs j).ofile = (k.procs j).ofile) :
    Aborted k k' ∧ ((∀ s, ((k₁.procs j).lazySegs s).ip = none) → ∀ x, net k' x = net k₁ x) := by
  have hf := freeproc_effect hrun
  refine ⟨fun l => ?_, fun hsegs x => ?_⟩
  · rw [hf.procs]
    by_cases hl : l = j
    · subst hl
      rw [Function.update_self]
      exact Or.inr ⟨hun, rfl, hcwd, hofile,
        fun s => by simp [freedProc, cleanupSwapFile, clearSegs]⟩
    · rw [Function.update_of_ne hl]
      exact Or.inl (hother l hl)
  · rw [hf.net x, segRefs_eq_zero hsegs, neg_zero, add_zero]

/-- **`allocproc`** takes no reference: a slot with no segments, or nothing but idle slots
changed. -/
theorem allocproc_effect {r : Option Nat} (hrun : allocproc k = .ok (r, k')) :
    (r = none ∧ Aborted k k' ∧ (IdleSegs k → ∀ x, net k' x = net k x)) ∨
    ∃ j tf root, r = some j ∧ j < nProc ∧ (k.procs j).state = .unused ∧
      k'.procs = Function.update k.procs j (initProc { k.procs j with
        pid := k.nextpid, state := .used, trapframe := some tf, pagetable := some root }) ∧
      ∀ x, net k' x = net k x := by
  unfold allocproc at hrun
  rw [Halting.bind_of_ok (Halting.get_apply _)] at hrun
  cases hfind : (List.range nProc).find? fun i => (k.procs i).state == .unused with
  | none =>
    rw [hfind] at hrun
    obtain ⟨rfl, rfl⟩ := Halting.pure_eq_ok.mp hrun
    exact Or.inl ⟨rfl, fun _ => Or.inl rfl, fun _ _ => rfl⟩
  | some j =>
    have hun : (k.procs j).state = .unused := by simpa using List.find?_some hfind
    have hj : j < nProc := List.mem_range.mp (List.mem_of_find?_eq_some hfind)
    rw [hfind] at hrun
    dsimp only at hrun
    obtain ⟨_, k₀, hnp, hrun⟩ := Halting.bind_eq_ok.mp hrun
    cases hnp
    obtain ⟨_, k₁, hup, hrun⟩ := Halting.bind_eq_ok.mp hrun
    rw [updProc_apply] at hup
    cases hup
    obtain ⟨o, k₂, hk, hrun⟩ := Halting.bind_eq_ok.mp hrun
    obtain ⟨m₂, -, rfl⟩ := onPhys_eq_ok.mp hk
    -- giving up, with a process in the slot that has the segments it had
    have hfail : ∀ {k₂ k₃ : Kernel} {p : Proc}, freeproc j k₂ = .ok ((), k₃) →
        k₂.procs = Function.update k.procs j p → (∀ x, net k₂ x = net k x) →
        p.cwd = (k.procs j).cwd → p.ofile = (k.procs j).ofile → p.lazySegs = (k.procs j).lazySegs →
        Aborted k k₃ ∧ (IdleSegs k → ∀ x, net k₃ x = net k x) := by
      intro k₂ k₃ p hfree hprocs hnet hcwd hofile hsegs
      have hp : k₂.procs j = p := by rw [hprocs, Function.update_self]
      obtain ⟨hab, hn⟩ := freeproc_aborted hfree hun
        (fun l hl => by rw [hprocs, Function.update_of_ne hl])
        (by rw [hp, hcwd]) (by rw [hp, hofile])
      refine ⟨hab, fun hidle x => (hn (fun s => ?_) x).trans (hnet x)⟩
      rw [hp, hsegs]
      exact hidle j hun s
    cases o with
    | none =>
      obtain ⟨_, k₃, hfree, hrun⟩ := Halting.bind_eq_ok.mp hrun
      obtain ⟨rfl, rfl⟩ := Halting.pure_eq_ok.mp hrun
      exact Or.inl ⟨rfl, hfail (p := { k.procs j with pid := k.nextpid, state := .used }) hfree rfl
        (fun _ => rfl) rfl rfl rfl⟩
    | some tf =>
      obtain ⟨_, k₃, hup, hrun⟩ := Halting.bind_eq_ok.mp hrun
      rw [updProc_apply] at hup
      cases hup
      obtain ⟨r', k₄, hpp, hrun⟩ := Halting.bind_eq_ok.mp hrun
      obtain ⟨m₄, -, rfl⟩ := onPhys_eq_ok.mp hpp
      simp only [Function.update_idem, Function.update_self] at hrun
      cases r' with
      | none =>
        obtain ⟨_, k₃, hfree, hrun⟩ := Halting.bind_eq_ok.mp hrun
        obtain ⟨rfl, rfl⟩ := Halting.pure_eq_ok.mp hrun
        exact Or.inl ⟨rfl, hfail (p := { k.procs j with
          pid := k.nextpid, state := .used, trapframe :=
            some tf }) hfree rfl (fun _ => rfl) rfl rfl rfl⟩
      | some root =>
        obtain ⟨_, k₅, hup, hrun⟩ := Halting.bind_eq_ok.mp hrun
        rw [updProc_apply] at hup
        cases hup
        obtain ⟨rfl, rfl⟩ := Halting.pure_eq_ok.mp hrun
        refine Or.inr ⟨j, tf, root, rfl, hj, hun, ?_, fun _ => rfl⟩
        simp only [Function.update_idem, Function.update_self]

/-- **`kfork`** takes a reference for the directory and for every segment of the child, or none. -/
theorem kfork_effect {r : Int} (hr : (k.procs i).state ≠ .unused)
    (hrun : kfork i k = .ok (r, k')) :
    (Aborted k k' ∧ (IdleSegs k → ∀ x, net k' x = net k x)) ∨
    ∃ j tf root, j < nProc ∧ (k.procs j).state = .unused ∧
      k'.procs = Function.update k.procs j (newChild k i j tf root) ∧
      (FilesOk (k.procs i) → ∀ x,
        net k' x = net k x + (segRefs (k.procs i).lazySegs x + owns (k.procs i).cwd x)) := by
  unfold kfork at hrun
  obtain ⟨oj, k₁, halloc, hrun⟩ := Halting.bind_eq_ok.mp hrun
  rcases allocproc_effect halloc with ⟨rfl, hab⟩ | ⟨j, tf, root, rfl, hj, hun, hprocs, hnet⟩
  · obtain ⟨-, rfl⟩ := Halting.pure_eq_ok.mp hrun
    exact Or.inl hab
  -- The slot is not the caller's own, since that is in use.
  have hij : j ≠ i := fun hc => hr (hc ▸ hun)
  have hpi : k₁.procs i = k.procs i := by rw [hprocs, Function.update_of_ne (Ne.symm hij)]
  have hpj : k₁.procs j = initProc { k.procs j with
      pid := k.nextpid, state := .used, trapframe := some tf, pagetable := some root } := by
    rw [hprocs, Function.update_self]
  obtain ⟨p, k₂, hget, hrun⟩ := Halting.bind_eq_ok.mp hrun
  cases hget
  obtain ⟨np, k₂, hget, hrun⟩ := Halting.bind_eq_ok.mp hrun
  cases hget
  rw [hpi, hpj] at hrun
  cases hroot : (k.procs i).pagetable with
  | none =>
    rw [hroot] at hrun
    cases hrun
  | some old =>
    rw [hroot] at hrun
    dsimp only [initProc] at hrun
    obtain ⟨rc, k₃, hcopy, hrun⟩ := Halting.bind_eq_ok.mp hrun
    obtain ⟨m₃, -, rfl⟩ := onPhys_eq_ok.mp hcopy
    split at hrun
    -- The copy of the memory failed: no reference has been taken yet.
    · obtain ⟨_, k₄, hfree, hrun⟩ := Halting.bind_eq_ok.mp hrun
      obtain ⟨-, rfl⟩ := Halting.pure_eq_ok.mp hrun
      obtain ⟨hab, hn⟩ := freeproc_aborted hfree hun (fun l hl => show k₁.procs l = _ by
        rw [hprocs, Function.update_of_ne hl]) ((congrArg Proc.cwd hpj).trans rfl)
        ((congrArg Proc.ofile hpj).trans rfl)
      exact Or.inl ⟨hab, fun _ x => (hn (fun s =>
        (congrArg (fun p => (p.lazySegs s).ip) hpj).trans rfl) x).trans (hnet x)⟩
    · obtain ⟨_, k₄, hseg, hrun⟩ := Halting.bind_eq_ok.mp hrun
      obtain ⟨_, k₅, hfile, hrun⟩ := Halting.bind_eq_ok.mp hrun
      have hp₅ := ((refsOnly_dupSegs _ _ _ _ _ hseg).trans (refsOnly_dupFiles _ _ _ _
        _ hfile)).procs
      cases hcwd : (k.procs i).cwd with
      | none =>
        rw [hcwd] at hrun
        cases hrun
      | some cwd =>
        rw [hcwd] at hrun
        obtain ⟨_, k₆, hdup, hrun⟩ := Halting.bind_eq_ok.mp hrun
        obtain ⟨_, k₇, hup, hrun⟩ := Halting.bind_eq_ok.mp hrun
        rw [updProc_apply] at hup
        cases hup
        obtain ⟨-, rfl⟩ := Halting.pure_eq_ok.mp hrun
        refine Or.inr ⟨j, tf, root, hj, hun, ?_, fun hok x => ?_⟩
        · rw [show k₆.procs = k₁.procs from (idup_moves hdup).procs.trans hp₅, hpj, hprocs,
            Function.update_idem]
          rfl
        -- Segments, files and the working directory, in this order.
        · have h₆ := ((dupSegs_moves _ _ hseg).trans (dupFiles_moves _ hok _ hfile)).trans
            (idup_moves hdup)
          change net k₆ x = _
          rw [h₆.net x, sum_finRange, add_zero]
          change net k₁ x + _ = _
          rw [hnet x]
          rfl

end Xv6
