import OsnMp2.User.ShellParse

/-!
# What the shell starts

The programs that a command starts, with the files that stand behind their descriptors. The
shell gets them there by closing descriptors and having the kernel give out the lowest free
one; the theorem says that this comes to what the command says: each program has the
descriptors 0, 1 and 2 and no others, so that no end of a pipe is left open in a process that
does not use it, whatever else fails.

## Main definitions

* `three`: the descriptors 0, 1 and 2, and no others
* `starts`: the programs of a command, with what they read and write

## Main results

* `runcmd_three`: the programs that are started are those of the command, with three descriptors
* `shell_starts`: what the shell starts for a line
-/

namespace Xv6.Sh

/-- The descriptors 0, 1 and 2, and no others. -/
def three (i o e : File) : Fds := fun fd =>
  if fd = 0 then some i else if fd = 1 then some o else if fd = 2 then some e else none

/-- A program that is started, with what it reads and writes. -/
structure Program where
  argv : List (List Char)
  input : File
  output : File

def Program.launch (e : File) (a : Program) : Launch := ⟨a.argv, three a.input a.output e⟩

/-- The programs of a command that reads `i` and writes `o`: of two redirections, the inner one
counts. -/
def programs : Cmd (List Char) → Path → File → File → List Program
  | .exec argv, _, i, o => if argv = [] then [] else [⟨argv, i, o⟩]
  | .redir cmd file mode fd, p, i, o =>
    if fd = 0 then programs cmd (p ++ [0]) (.opened file mode) o
      else programs cmd (p ++ [0]) i (.opened file mode)
  | .pipe left right, p, i, o => programs left (p ++ [0]) i (.pipeWrite p) ++
      programs right (p ++ [1]) (.pipeRead p) o
  | .list left right, p, i, o => programs left (p ++ [0]) i o ++ programs right (p ++ [1]) i o
  | .back cmd, p, i, o => programs cmd (p ++ [0]) i o

/-- All redirections are of the standard input and output. -/
def Cmd.Std {W : Type} : Cmd W → Prop
  | .exec _ => True
  | .redir cmd _ _ fd => cmd.Std ∧ (fd = 0 ∨ fd = 1)
  | .pipe left right => left.Std ∧ right.Std
  | .list left right => left.Std ∧ right.Std
  | .back cmd => cmd.Std

/-- No system call fails. -/
structure Env.Good (env : Env) : Prop where
  fork : ∀ p, env.fork p = true
  fork2 : ∀ p, env.fork2 p = true
  pipe : ∀ p, env.pipe p = true
  opens : ∀ p file mode, env.opens p file mode = true

/-! ## Descriptors -/

/-- The lowest free descriptor is given out. -/
theorem fdalloc_lowest {fds : Fds} (fd : Nat) {f : File} (hfree : fds fd = none)
    (hbelow : ∀ j < fd, (fds j).isSome = true) (hfd : fd < nofile) :
    fdalloc fds f = some (fd, Function.update fds fd (some f)) := by
  have hfind : ((List.range nofile).find? fun fd => (fds fd).isNone) = some fd := by
    refine List.find?_range_eq_some.mpr ⟨by simp [hfree], List.mem_range.mpr hfd, fun j hj => ?_⟩
    rw [Option.isNone_eq_false_iff.mpr (hbelow j hj)]
    rfl
  rw [fdalloc, hfind]
  rfl

section

variable (i o e : File)

theorem three_below {j : Nat} (hj : j < 3) : (three i o e j).isSome = true := by
  have hcases : j = 0 ∨ j = 1 ∨ j = 2 := by omega
  rcases hcases with rfl | rfl | rfl <;> rfl

theorem three_above {fd : Nat} (hfd : 3 ≤ fd) : three i o e fd = none := by
  simp [three, show fd ≠ 0 by omega, show fd ≠ 1 by omega, show fd ≠ 2 by omega]

theorem fdalloc_close_input (f : File) :
    (fdalloc (close (three i o e) 0) f).map Prod.snd = some (three f o e) := by
  have halloc : fdalloc (close (three i o e) 0) f = _ := fdalloc_lowest 0 rfl
    (fun j hj => absurd hj (Nat.not_lt_zero j)) (by decide)
  rw [halloc]
  refine congrArg some (funext fun fd => ?_)
  by_cases hfd : fd = 0 <;> simp [close, three, hfd]

theorem fdalloc_close_output (f : File) :
    (fdalloc (close (three i o e) 1) f).map Prod.snd = some (three i f e) := by
  have halloc : fdalloc (close (three i o e) 1) f = _ := fdalloc_lowest 1 rfl
    (fun j hj => by rw [Nat.lt_one_iff.mp hj]; rfl) (by decide)
  rw [halloc]
  refine congrArg some (funext fun fd => ?_)
  by_cases hfd : fd = 1 <;> simp [close, three, hfd]

/-- The three descriptors, and the two ends of a pipe. -/
def withPipe (p : Path) : Fds :=
  Function.update (Function.update (three i o e) 3 (some (.pipeRead p))) 4 (some (.pipeWrite p))

theorem pipe_three (p : Path) : pipe (three i o e) p = some (3, 4, withPipe i o e p) := by
  have hread : fdalloc (three i o e) (.pipeRead p) = _ :=
    fdalloc_lowest 3 (three_above i o e (Nat.le_refl 3)) (fun j hj => three_below i o e hj)
      (by decide)
  have hwrite : fdalloc (Function.update (three i o e) 3 (some (.pipeRead p))) (.pipeWrite p) =
      some (4, withPipe i o e p) := by
    refine fdalloc_lowest 4 rfl (fun j hj => ?_) (by decide)
    by_cases hj3 : j = 3
    · rw [hj3, Function.update_self]
      rfl
    · rw [Function.update_of_ne hj3]
      exact three_below i o e (by omega)
  rw [pipe, hread, Option.bind_some, hwrite]
  rfl

/-- The child on the left of a pipe. -/
theorem left_three (p : Path) :
    close (close (dup (close (withPipe i o e p) 1) 4) 3) 4 = three i (.pipeWrite p) e := by
  have hdup : dup (close (withPipe i o e p) 1) 4 =
      Function.update (close (withPipe i o e p) 1) 1 (some (.pipeWrite p)) := by
    have halloc : fdalloc (close (withPipe i o e p) 1) (.pipeWrite p) = _ :=
      fdalloc_lowest 1 rfl (fun j hj => by rw [Nat.lt_one_iff.mp hj]; rfl) (by decide)
    have hfour : close (withPipe i o e p) 1 4 = some (.pipeWrite p) := rfl
    rw [dup, hfour]
    show ((fdalloc _ _).map _).getD _ = _
    rw [halloc]
    rfl
  rw [hdup]
  funext fd
  by_cases h1 : fd = 1 <;> by_cases h3 : fd = 3 <;> by_cases h4 : fd = 4 <;>
    simp [close, withPipe, three, Function.update_apply, h1, h3, h4]

/-- The child on the right of a pipe. -/
theorem right_three (p : Path) :
    close (close (dup (close (withPipe i o e p) 0) 3) 3) 4 = three (.pipeRead p) o e := by
  have hdup : dup (close (withPipe i o e p) 0) 3 =
      Function.update (close (withPipe i o e p) 0) 0 (some (.pipeRead p)) := by
    have halloc : fdalloc (close (withPipe i o e p) 0) (.pipeRead p) = _ :=
      fdalloc_lowest 0 rfl (fun j hj => absurd hj (Nat.not_lt_zero j)) (by decide)
    have hthree : close (withPipe i o e p) 0 3 = some (.pipeRead p) := rfl
    rw [dup, hthree]
    show ((fdalloc _ _).map _).getD _ = _
    rw [halloc]
    rfl
  rw [hdup]
  funext fd
  by_cases h0 : fd = 0 <;> by_cases h3 : fd = 3 <;> by_cases h4 : fd = 4 <;>
    simp [close, withPipe, three, Function.update_apply, h0, h3, h4]

end

/-! ## The programs -/

/-- A redirection in a process with three descriptors. -/
theorem openFile_three {env : Env} {p : Path} {fds : Fds} (i o e : File) {file : List Char}
    {mode fd : Nat}
    (hfd : fd = 0 ∨ fd = 1) (h : openFile env p (close (three i o e) fd) file mode = some fds) :
    fds = if fd = 0 then three (.opened file mode) o e else three i (.opened file mode) e := by
  unfold openFile at h
  by_cases hok : env.opens p file mode = true
  · rw [if_pos hok] at h
    rcases hfd with rfl | rfl
    · exact (Option.some.inj ((fdalloc_close_input i o e _).symm.trans h)).symm
    · exact (Option.some.inj ((fdalloc_close_output i o e _).symm.trans h)).symm
  · rw [if_neg hok] at h
    cases h

/-- What a redirected command starts. -/
theorem runcmd_redir (env : Env) {cmd : Cmd (List Char)} {file : List Char} {mode fd : Nat}
    {p : Path} {i o e : File}
    (hfd : fd = 0 ∨ fd = 1) : runcmd env (.redir cmd file mode fd) p (three i o e) =
      if env.opens p file mode then
        runcmd env cmd (p ++ [0]) (if fd = 0 then three (.opened file mode) o e
          else three i (.opened file mode) e)
      else [] := by
  rw [runcmd]
  cases hopen : openFile env p (close (three i o e) fd) file mode with
  | none =>
    by_cases hok : env.opens p file mode = true
    · rw [openFile, if_pos hok] at hopen
      rcases hfd with rfl | rfl
      · cases hopen.symm.trans (fdalloc_close_input i o e _)
      · cases hopen.symm.trans (fdalloc_close_output i o e _)
    · rw [if_neg hok]
  | some fds =>
    have hok : env.opens p file mode = true := by
      by_contra hok
      rw [openFile, if_neg hok] at hopen
      cases hopen
    rw [if_pos hok, openFile_three i o e hfd hopen]

/-- What a pipe starts. -/
theorem runcmd_pipe (env : Env) {left right : Cmd (List Char)} {p : Path} {i o e : File} :
    runcmd env (.pipe left right) p (three i o e) =
      if env.pipe p ∧ env.fork p then
        runcmd env left (p ++ [0]) (three i (.pipeWrite p) e) ++
          if env.fork2 p then runcmd env right (p ++ [1]) (three (.pipeRead p) o e) else []
      else [] := by
  rw [runcmd]
  by_cases hpipe : env.pipe p = true
  · by_cases hfork : env.fork p = true
    · rw [if_pos hpipe, pipe_three, if_pos ⟨hpipe, hfork⟩]
      show (if env.fork p = true then _ else _) = _
      rw [if_pos hfork, left_three, right_three]
    · rw [if_pos hpipe, pipe_three, if_neg fun h => hfork h.2]
      exact if_neg hfork
  · rw [if_neg hpipe, if_neg fun h => hpipe h.1]

/-- **The programs that are started are programs of the command**, in its order, and each
has three descriptors. -/
theorem runcmd_three (env : Env) {cmd : Cmd (List Char)} (hstd : cmd.Std) (p : Path)
    (i o e : File) :
    (runcmd env cmd p (three i o e)).Sublist ((programs cmd p i o).map (Program.launch e)) := by
  induction cmd generalizing p i o with
  | exec argv =>
    rw [runcmd, programs]
    by_cases hargv : argv = []
    · rw [if_pos hargv]
      exact List.nil_sublist _
    · rw [if_neg hargv, if_neg hargv]
      exact List.Sublist.refl _
  | redir cmd file mode fd ih =>
    rw [runcmd_redir env hstd.2, programs]
    by_cases hok : env.opens p file mode = true
    · rw [if_pos hok]
      by_cases hfd : fd = 0
      · rw [if_pos hfd, if_pos hfd]
        exact ih hstd.1 ..
      · rw [if_neg hfd, if_neg hfd]
        exact ih hstd.1 ..
    · rw [if_neg hok]
      exact List.nil_sublist _
  | pipe left right ihl ihr =>
    rw [runcmd_pipe, programs, List.map_append]
    by_cases hok : env.pipe p = true ∧ env.fork p = true
    · rw [if_pos hok]
      refine (ihl hstd.1 ..).append ?_
      by_cases hfork2 : env.fork2 p = true
      · rw [if_pos hfork2]
        exact ihr hstd.2 ..
      · rw [if_neg hfork2]
        exact List.nil_sublist _
    · rw [if_neg hok]
      exact List.nil_sublist _
  | list left right ihl ihr =>
    rw [runcmd, programs, List.map_append]
    by_cases hfork : env.fork p = true
    · rw [if_pos hfork]
      exact (ihl hstd.1 ..).append (ihr hstd.2 ..)
    · rw [if_neg hfork]
      exact List.nil_sublist _
  | back cmd ih =>
    rw [runcmd, programs]
    by_cases hfork : env.fork p = true
    · rw [if_pos hfork]
      exact ih hstd ..
    · rw [if_neg hfork]
      exact List.nil_sublist _

/-- Where nothing fails, all programs are started. -/
theorem runcmd_good {env : Env} (hgood : env.Good) {cmd : Cmd (List Char)} (hstd : cmd.Std)
    (p : Path)
    (i o e : File) : runcmd env cmd p (three i o e) =
    (programs cmd p i o).map (Program.launch e) := by
  induction cmd generalizing p i o with
  | exec argv =>
    rw [runcmd, programs]
    by_cases hargv : argv = []
    · rw [if_pos hargv, if_pos hargv]
      rfl
    · rw [if_neg hargv, if_neg hargv]
      rfl
  | redir cmd file mode fd ih =>
    rw [runcmd_redir env hstd.2, programs, if_pos (hgood.opens p file mode)]
    by_cases hfd : fd = 0
    · rw [if_pos hfd, if_pos hfd, ih hstd.1]
    · rw [if_neg hfd, if_neg hfd, ih hstd.1]
  | pipe left right ihl ihr =>
    rw [runcmd_pipe, programs, List.map_append, if_pos ⟨hgood.pipe p, hgood.fork p⟩,
      if_pos (hgood.fork2 p), ihl hstd.1, ihr hstd.2]
  | list left right ihl ihr =>
    rw [runcmd, programs, List.map_append, if_pos (hgood.fork p), ihl hstd.1, ihr hstd.2]
  | back cmd ih => rw [runcmd, programs, if_pos (hgood.fork p), ih hstd]

/-! ## From a line -/

theorem Cmd.Std.addArg {W : Type} {cmd : Cmd W} {w : W} (h : cmd.Std) : (cmd.addArg w).Std := by
  induction cmd with
  | redir cmd file mode fd ih => exact ⟨ih h.1, h.2⟩
  | _ => exact h

theorem Redirection.std {cmd : Cmd (List Char)} (h : cmd.Std) (r : Redirection) :
    (r.apply cmd).Std :=
  ⟨h, by cases r.kind <;> decide⟩

theorem Derives.std {k : Level} {ts : List Token} {c : Cmd (List Char)} (h : Derives k ts c) :
    c.Std := by
  have hbacks : ∀ {c : Cmd (List Char)} (k : Nat), c.Std → (backs c k).Std := by
    intro c k hc
    induction k with
    | zero => exact hc
    | succ k ih => exact ih
  induction h with
  | simple items hargs =>
    have hfold : ∀ (items : List Item) (c : Cmd (List Char)), c.Std →
      (items.foldl Item.apply c).Std := by
      intro items
      induction items with
      | nil => exact fun c hc => hc
      | cons item items ih =>
        intro c hc
        cases item with
        | arg text => exact ih _ hc.addArg
        | redir r => exact ih _ (r.std hc)
    exact hfold items _ trivial
  | block _ rs ih =>
    have hfold : ∀ (rs : List Redirection) (c : Cmd (List Char)), c.Std →
      (rs.foldl Redirection.apply c).Std := by
      intro rs
      induction rs with
      | nil => exact fun c hc => hc
      | cons r rs ih => exact fun c hc => ih _ (r.std hc)
    exact hfold rs _ ih
  | last _ ih => exact ih
  | pipe _ _ ihc ihd => exact ⟨ihc, ihd⟩
  | done _ k ih => exact hbacks k ih
  | list _ k _ ihc ihd => exact ⟨hbacks k ihc, ihd⟩

/-- The console, as the shell opens it. -/
def console : File := .opened ['c', 'o', 'n', 's', 'o', 'l', 'e'] oRdwr

/-- One round of the loop opens a descriptor that is closed. -/
theorem openConsole_step {k n fd : Nat} {fds : Fds} (hfd : fd < 3) (hfree : fds fd = none)
    (hbelow : ∀ j < fd, (fds j).isSome = true) :
    openConsole (k + 1) (n + 1) fds = openConsole k n (Function.update fds fd (some console)) := by
  have halloc : fdalloc fds console = _ := fdalloc_lowest fd hfree hbelow (by unfold nofile; omega)
  rw [openConsole]
  unfold console at halloc
  simp only [halloc]
  exact if_neg (by omega)

/-- The descriptor is open. -/
def fill (fds : Fds) (fd : Nat) : Fds := Function.update fds fd (some ((fds fd).getD console))

theorem fill_of_some {fds : Fds} {fd : Nat} {f : File} (h : fds fd = some f) :
    fill fds fd = fds := by
  rw [fill, h]
  exact (congrArg (Function.update fds fd) h.symm).trans (Function.update_eq_self fd fds)

/-- The loop ends when the console is opened for the fourth time. -/
theorem openConsole_last {k n : Nat} {fds : Fds} (hopen : ∀ j < 3, (fds j).isSome = true)
    (hclosed : fds 3 = none) : openConsole (k + 1) (n + 1) fds = fds := by
  have halloc : fdalloc fds console = _ := fdalloc_lowest 3 hclosed hopen (by decide)
  rw [openConsole]
  unfold console at halloc
  simp only [halloc]
  show close (Function.update fds 3 _) 3 = fds
  rw [close, Function.update_idem, ← hclosed, Function.update_eq_self]

/-- The rounds that open the descriptors from `fd` on, when the ones below are open. -/
theorem openConsole_fill (fd : Nat) {k n : Nat} {fds g : Fds} (hfd : fd < 3)
    (hbelow : ∀ j < fd, (fds j).isSome = true)
    (hrest : ∀ k' n', k ≤ k' → n ≤ n' → openConsole k' n' (fill fds fd) = g) :
    ∀ k' n', k + 1 ≤ k' → n + 1 ≤ n' → openConsole k' n' fds = g := by
  intro k' n' hk hn
  cases hf : fds fd with
  | none =>
    obtain ⟨k', rfl⟩ := Nat.exists_eq_add_of_le' (Nat.le_of_add_left_le hk)
    obtain ⟨n', rfl⟩ := Nat.exists_eq_add_of_le' (Nat.le_of_add_left_le hn)
    have hfill : fill fds fd = Function.update fds fd (some console) := by
      rw [fill, hf, Option.getD_none]
    rw [openConsole_step hfd hf hbelow, ← hfill]
    exact hrest k' n' (by omega) (by omega)
  | some f =>
    rw [← fill_of_some hf]
    exact hrest k' n' (by omega) (by omega)

/-- **The shell starts with three descriptors.** -/
theorem openConsole_three {k : Nat} {fds : Fds} (hk : 4 ≤ k) (hfds : ∀ fd, 3 ≤ fd → fds fd = none) :
    openConsole k nofile fds = three ((fds 0).getD console) ((fds 1).getD console) ((fds 2).getD
      console) := by
  have hfilled : fill (fill (fill fds 0) 1) 2 =
      three ((fds 0).getD console) ((fds 1).getD console) ((fds 2).getD console) := by
    funext fd
    by_cases h0 : fd = 0 <;> by_cases h1 : fd = 1 <;> by_cases h2 : fd = 2 <;>
      simp [fill, three, Function.update_apply, h0, h1, h2]
    exact hfds fd (by omega)
  have hself : ∀ (fds : Fds) fd, (fill fds fd fd).isSome = true := fun fds fd => by
    rw [fill, Function.update_self]; rfl
  have hkeep : ∀ {fds : Fds} {fd j : Nat}, (fds j).isSome = true →
    (fill fds fd j).isSome = true := by
    intro fds fd j hj
    by_cases hjfd : j = fd
    · rw [hjfd]
      exact hself fds fd
    · rwa [fill, Function.update_of_ne hjfd]
  have hlast : ∀ k' n', 1 ≤ k' → 1 ≤ n' → openConsole k' n' (fill (fill (fill fds 0) 1) 2) =
      three ((fds 0).getD console) ((fds 1).getD console) ((fds 2).getD console) := by
    intro k' n' hk hn
    obtain ⟨k', rfl⟩ := Nat.exists_eq_add_of_le' hk
    obtain ⟨n', rfl⟩ := Nat.exists_eq_add_of_le' hn
    refine (openConsole_last (fun j hj => ?_) ?_).trans hfilled
    · rw [hfilled]
      exact three_below _ _ _ hj
    · rw [hfilled]
      exact three_above _ _ _ (Nat.le_refl 3)
  have hzero := hself fds 0
  have htwo := openConsole_fill 2 (by decide) (fun j hj => by
    have hcases : j = 0 ∨ j = 1 := by omega
    rcases hcases with rfl | rfl
    · exact hkeep hzero
    · exact hself (fill fds 0) 1) hlast
  have hone := openConsole_fill 1 (by decide) (fun j hj => by rwa [Nat.lt_one_iff.mp hj]) htwo
  exact openConsole_fill 0 (by decide) (fun j hj => absurd hj (Nat.not_lt_zero j)) hone k nofile
    hk (by decide)

/-- **What the shell starts for a line**: it has the descriptors 0, 1 and 2, and the programs that
it starts are programs of the command, in its order, each with descriptors 0, 1 and 2 of its own and
no others. It starts all of them where no system call fails. -/
theorem shell_starts {buf buf' : List Char} {cmd : Cmd Word}
    (hparse : parsecmd buf = .ok (cmd, buf')) {k : Nat}
    {fds : Fds} (hk : 4 ≤ k) (hfds : ∀ fd, 3 ≤ fd → fds fd = none) (env : Env) :
    ∃ i o e : File, openConsole k nofile fds = three i o e ∧
      let c := cmd.map (readWord (cstr buf).length buf')
      (runcmd env c [] (openConsole k nofile fds)).Sublist
        ((programs c [] i o).map (Program.launch e)) ∧
        (env.Good → runcmd env c [] (openConsole k nofile fds) = (programs c [] i o).map
         (Program.launch e)) := by
  have hstd := (((parsecmd_iff buf).2 _).mp ⟨cmd, buf', hparse, rfl⟩).std
  refine ⟨_, _, _, openConsole_three hk hfds, ?_⟩
  rw [openConsole_three hk hfds]
  exact ⟨runcmd_three env hstd .., fun hgood => runcmd_good hgood hstd ..⟩

/-- `ls|wc>x`, and then `echo` in the background. -/
def line : List Char := ['l', 's', '|', 'w', 'c', '>', 'x', ';', 'e', 'c', 'h', 'o', '&',
      '\n', '\x00']

/-- The command of `line`, as it is read from the buffer. -/
def lineCmd : Cmd (List Char) :=
  .list (.pipe (.exec [['l', 's']]) (.redir (.exec [['w', 'c']]) ['x']
    (oWronly ||| oCreate ||| oTrunc) 1)) (.back (.exec [['e', 'c', 'h', 'o']]))

/-- The shell starts with no descriptor open, and reads `line`. -/
theorem shell_starts_line : ∃ (cmd : Cmd Word) (buf' : List Char), parsecmd line = .ok (cmd, buf') ∧
    cmd.map (readWord (cstr line).length buf') = lineCmd ∧
    ∀ env : Env, ∃ i o e : File, openConsole 4 nofile (fun _ => none) = three i o e ∧
      (runcmd env lineCmd [] (three i o e)).Sublist ((programs lineCmd [] i o).map
       (Program.launch e)) := by
  have htest : ((parsecmd line).toOption.map fun r => r.1.map (readWord (cstr line).length r.2)) =
    some lineCmd := by
    decide +kernel
  obtain ⟨⟨cmd, buf'⟩, hparse, hcmd⟩ := Option.map_eq_some_iff.mp htest
  have hok : parsecmd line = .ok (cmd, buf') := by
    cases h : parsecmd line with
    | error e =>
      rw [h] at hparse
      cases hparse
    | ok r =>
      rw [h] at hparse
      exact congrArg Except.ok (Option.some.inj hparse)
  refine ⟨cmd, buf', hok, hcmd, fun env => ?_⟩
  have hfds : ∀ fd, 3 ≤ fd → (fun _ => none : Fds) fd = none := fun _ _ => rfl
  obtain ⟨i, o, e, hthree, hsub, -⟩ := shell_starts hok (Nat.le_refl 4) hfds env
  rw [hthree] at hsub
  refine ⟨i, o, e, hthree, ?_⟩
  rw [← hcmd]
  exact hsub

end Xv6.Sh
