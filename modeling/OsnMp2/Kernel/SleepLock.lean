import OsnMp2.Kernel.Wakeup

/-!
# Sleeplocks

A sleeplock is a flag and the process that has set it, under a spinlock of its own. A process that
finds the flag set goes to sleep, and tests it again when it runs. The rest of the kernel, with its
own locks, conditions and data, is a parameter.

Code that takes and gives back sleeplocks is checked like code that uses spinlocks: a process gives
back only what it has, and takes sleeplocks in an order.

## Main definitions

* `acquiresleep`, `releasesleep`, `holdingsleep`
* `Sections`: the code takes and gives back sleeplocks in turn
* `Owned`: the invariant

## Main results

* `sleeplock_owner`: a sleeplock has one owner, the process that has still to give it back
* `sleeplock_progress`: where processes sleep for sleeplocks, a process that has one does not
-/

set_option linter.unusedSectionVars false

namespace Xv6.Sched

variable {P Z M V B C D : Type} [DecidableEq P] [DecidableEq Z] [DecidableEq M] [DecidableEq V]
    [DecidableEq C]

/-- `struct sleeplock`, without its spinlock. -/
structure Sleeplock (P : Type) where
  locked : Bool := false
  pid : Option P := none
deriving DecidableEq

/-- What a process does to a sleeplock when it holds the spinlock of it. -/
inductive SleepAct (Z : Type)
  /-- `lk->locked = 1; lk->pid = myproc()->pid` -/
  | take (z : Z)
  /-- `lk->locked = 0; lk->pid = 0` -/
  | drop (z : Z)
deriving DecidableEq

/-- The kernel with sleeplocks: their spinlocks, channels and actions come first, those of the rest
second. `rounds` is what the loops of the rest do in each round. -/
def withSleeplocks (Z : Type) [DecidableEq Z] (rest : Kernel P M V B D)
    (rounds : P → V → D → List (Instr P (Z ⊕ M) (Z ⊕ V) (SleepAct Z ⊕ B))) :
    Kernel P (Z ⊕ M) (Z ⊕ V) (SleepAct Z ⊕ B) ((Z → Sleeplock P) × D) where
  procs := rest.procs
  perform
    | .inl (.take z), me, d => (Function.update d.1 z { locked := true, pid := me }, d.2)
    | .inl (.drop z), _, d => (Function.update d.1 z {}, d.2)
    | .inr b, me, d => (d.1, rest.perform b me d.2)
  cond
    | .inl z, d => (d.1 z).locked
    | .inr v, d => rest.cond v d.2
  guard
    | .inl z => .inl z
    | .inr v => .inr (rest.guard v)
  chan
    | .inl z => .inl z
    | .inr v => .inr (rest.chan v)
  killable
    | .inl _ => false
    | .inr v => rest.killable v
  round p
    | .inl _, _ => []
    | .inr v, d => rounds p v d.2

/-- `acquiresleep(lk)`. -/
def acquiresleep (z : Z) : List (Instr P (Z ⊕ M) (Z ⊕ V) (SleepAct Z ⊕ B)) :=
  [.acquire (.other (.inl z)), .await (.inl z), .act (.inl (.take z)), .release (.other (.inl z))]

/-- `releasesleep(lk)`; `me` is `myproc()`. -/
def releasesleep (procs : List P) (me : P) (z : Z) :
    List (Instr P (Z ⊕ M) (Z ⊕ V) (SleepAct Z ⊕ B)) :=
  .acquire (.other (.inl z)) :: .act (.inl (.drop z)) ::
    (wakeup procs (some me) (.inl z) ++ [.release (.other (.inl z))])

/-- What `holdingsleep(lk)` returns; `me` is `myproc()`. -/
def holdingsleep (locks : Z → Sleeplock P) (me : P) (z : Z) : Bool :=
  (locks z).locked && decide ((locks z).pid = some me)

variable {rest : Kernel P M V B D}
  {rounds : P → V → D → List (Instr P (Z ⊕ M) (Z ⊕ V) (SleepAct Z ⊕ B))} {before : Z → Z →
    Prop} {rank : Lock P (Z ⊕ M) → Nat}
  {i : Instr P (Z ⊕ M) (Z ⊕ V) (SleepAct Z ⊕ B)}
  {k k' : List (Instr P (Z ⊕ M) (Z ⊕ V) (SleepAct Z ⊕ B))}
  {c c' : C} {p q : P} {z : Z} {own : List Z} {got : Option Z}
  {s s' : State P (Z ⊕ M) (Z ⊕ V) (SleepAct Z ⊕ B) C ((Z → Sleeplock P) × D)}

/-! ## Code with sleeplocks -/

/-- An instruction in the kernel that has nothing to do with sleeplocks. -/
def Instr.Plain : Instr P (Z ⊕ M) (Z ⊕ V) (SleepAct Z ⊕ B) → Prop
  | .await (.inl _) | .test (.inl _) | .act (.inl _) | .setZombie | .userret => False
  | _ => True

/-- Code that has nothing to do with sleeplocks, as that of the handlers of interrupts and of
`scheduler`. -/
def Plain (k : List (Instr P (Z ⊕ M) (Z ⊕ V) (SleepAct Z ⊕ B))) : Prop := ∀ i ∈ k, i.Plain

/-- **The discipline of the sleeplocks**, for code of a process that has the sleeplocks `own` and,
in the middle of `acquiresleep`, has found `got` free. -/
inductive Sections (before : Z → Z → Prop) :
    List Z → Option Z → List (Instr P (Z ⊕ M) (Z ⊕ V) (SleepAct Z ⊕ B)) → Prop
  | done : Sections before [] none []
  | userret {k : List (Instr P (Z ⊕ M) (Z ⊕ V) (SleepAct Z ⊕ B))} :
      Sections before [] none (.userret :: k)
  | await {own : List Z} {z : Z} {k : List (Instr P (Z ⊕ M) (Z ⊕ V) (SleepAct Z ⊕ B))}
      (rest : Sections before own (some z) k) : Sections before own none (.await (.inl z) :: k)
  | test {own : List Z} {z : Z} {k : List (Instr P (Z ⊕ M) (Z ⊕ V) (SleepAct Z ⊕ B))}
      (rest : Sections before own (some z) k) : Sections before own none (.test (.inl z) :: k)
  | exit {k : List (Instr P (Z ⊕ M) (Z ⊕ V) (SleepAct Z ⊕ B))} (rest : Sections before [] none k) :
      Sections before [] none (.setZombie :: k)
  | take {own : List Z} {z : Z} {k : List (Instr P (Z ⊕ M) (Z ⊕ V) (SleepAct Z ⊕ B))}
      (order : ∀ o ∈ own, before o z)
      (rest : Sections before (z :: own) none k) :
      Sections before own (some z) (.act (.inl (.take z)) :: k)
  | drop {own : List Z} {z : Z} {k : List (Instr P (Z ⊕ M) (Z ⊕ V) (SleepAct Z ⊕ B))}
      (mine : z ∈ own)
      (rest : Sections before (own.erase z) none k) :
      Sections before own none (.act (.inl (.drop z)) :: k)
  | plain {own : List Z} {i : Instr P (Z ⊕ M) (Z ⊕ V) (SleepAct Z ⊕ B)}
      {k : List (Instr P (Z ⊕ M) (Z ⊕ V) (SleepAct Z ⊕ B))} (plain : i.Plain)
      (rest : Sections before own none k) : Sections before own none (i :: k)

/-- The process has still to give the sleeplock back. -/
def owes (z : Z) : List (Instr P (Z ⊕ M) (Z ⊕ V) (SleepAct Z ⊕ B)) → Bool
  | [] | .userret :: _ => false
  | .act (.inl (.take z')) :: k => z' ≠ z && owes z k
  | .act (.inl (.drop z')) :: k => z' = z || owes z k
  | _ :: k => owes z k

theorem owes_cons (hi : i.Plain) : owes z (i :: k) = owes z k := by
  cases i
  case act a =>
    cases a with
    | inl _ => exact hi.elim
    | inr _ => rfl
  case userret => exact hi.elim
  all_goals rfl

theorem Sections.append (h : Plain k) (h' : Sections before own none k') :
    Sections before own none (k ++ k') := by
  induction k with
  | nil => exact h'
  | cons i k ih =>
    exact .plain (h i List.mem_cons_self) (ih fun j hj => h j (List.mem_cons_of_mem _ hj))

theorem Sections.tail (h : Sections before own none (i :: k)) (hi : i.Plain) :
    Sections before own none k := by
  cases h with
  | userret => exact hi.elim
  | await _ => exact hi.elim
  | test _ => exact hi.elim
  | exit _ => exact hi.elim
  | drop _ _ => exact hi.elim
  | plain _ rest => exact rest

/-- `acquiresleep`, of a sleeplock that comes after those that the process has. -/
theorem Sections.acquiresleep (horder : ∀ o ∈ own, before o z)
    (h : Sections before (z :: own) none k) : Sections before own none (acquiresleep z ++ k) :=
  .plain trivial (.await (.take horder (.plain trivial h)))

theorem plain_wakeup (procs : List P) (me : Option P) (w : Z ⊕ V) :
    Plain (wakeup procs me w : List (Instr P (Z ⊕ M) (Z ⊕ V) (SleepAct Z ⊕ B))) := by
  intro i hi
  obtain ⟨q, -, hq⟩ := List.mem_flatMap.mp hi
  simp only [List.mem_cons, List.not_mem_nil, or_false] at hq
  rcases hq with rfl | rfl | rfl <;> trivial

/-- `releasesleep`, of a sleeplock that the process has. -/
theorem Sections.releasesleep {procs : List P} {me : P} (hmine : z ∈ own)
    (h : Sections before (own.erase z) none k) :
    Sections before own none (releasesleep procs me z ++ k) := by
  refine .plain trivial (.drop hmine ?_)
  have hrest : Sections before (own.erase z) none
      (wakeup procs (some me) (.inl z) ++ ([.release (.other (.inl z))] ++ k)) :=
    .append (plain_wakeup _ _ _) (.plain trivial h)
  rw [← List.append_assoc] at hrest
  exact hrest

theorem plain_sleep (p : P) (w : Z ⊕ V) (lk : Z ⊕ M) :
    Plain (sleep p w lk : List (Instr P (Z ⊕ M) (Z ⊕ V) (SleepAct Z ⊕ B))) := by
  simp [Plain, sleep, Instr.Plain]

theorem plain_scheduler (procs : List P) :
    Plain (scheduler procs : List (Instr P (Z ⊕ M) (Z ⊕ V) (SleepAct Z ⊕ B))) := by
  intro i hi
  rcases List.mem_append.mp hi with hi | hi
  · simp only [List.mem_cons, List.not_mem_nil, or_false] at hi
    rcases hi with rfl | rfl <;> trivial
  · obtain ⟨q, -, hq⟩ := List.mem_flatMap.mp hi
    simp only [List.mem_cons, List.not_mem_nil, or_false] at hq
    rcases hq with rfl | rfl | rfl <;> trivial

/-- The code gives back the sleeplocks that the process has, and no others. -/
theorem Sections.mem_iff (hirrefl : ∀ z, ¬ before z z) (h : Sections before own got k)
    (hnodup : own.Nodup) : z ∈ own ↔ owes z k = true := by
  induction h with
  | done => simp [owes]
  | userret => simp [owes]
  | await rest ih => exact ih hnodup
  | test rest ih => exact ih hnodup
  | exit rest ih => exact ih hnodup
  | @take own z' k order rest ih =>
    have hnew : z' ∉ own := fun hc => hirrefl z' (order z' hc)
    have hiff := ih (List.nodup_cons.mpr ⟨hnew, hnodup⟩)
    rw [List.mem_cons] at hiff
    by_cases hz : z = z'
    · subst hz
      simp [owes, hnew]
    · have hz' : z' ≠ z := fun hc => hz hc.symm
      simp only [owes, ne_eq, hz', not_false_eq_true, decide_true, Bool.true_and, ← hiff,
        hz, false_or]
  | @drop own z' k mine rest ih =>
    have hiff := ih (hnodup.erase z')
    rw [hnodup.mem_erase_iff] at hiff
    by_cases hz : z = z'
    · subst hz
      simp [owes, mine]
    · have hz' : z' ≠ z := fun hc => hz hc.symm
      simp only [owes, hz', decide_false, Bool.false_or, ← hiff, ne_eq, hz,
        not_false_eq_true, true_and]
  | plain hi rest ih =>
    rw [owes_cons hi]
    exact ih hnodup

/-! ## Spinlocks in the code of sleeplocks -/

/-- To take a sleeplock ends no wait. -/
theorem not_ends_take {w : Z ⊕ V} : ¬ (withSleeplocks Z rest rounds).Ends (.inl (.take z)) w := by
  rintro ⟨me, d, htrue, hfalse⟩
  cases w with
  | inr v => exact Bool.false_ne_true (hfalse.symm.trans htrue)
  | inl z' =>
    have hafter : (Function.update d.1 z { locked := true, pid := me } z').locked = false := hfalse
    by_cases hz : z' = z
    · rw [hz, Function.update_self] at hafter
      cases hafter
    · rw [Function.update_of_ne hz] at hafter
      exact Bool.false_ne_true (hafter.symm.trans htrue)

/-- To give back a sleeplock ends the waits for it. -/
theorem eq_of_ends_drop {w : Z ⊕ V} (h : (withSleeplocks Z rest rounds).Ends (.inl (.drop z)) w) :
    w = .inl z := by
  obtain ⟨me, d, htrue, hfalse⟩ := h
  cases w with
  | inr v => exact absurd (hfalse.symm.trans htrue) Bool.false_ne_true
  | inl z' =>
    have hafter : (Function.update d.1 z {} z').locked = false := hfalse
    by_cases hz : z' = z
    · rw [hz]
    · rw [Function.update_of_ne hz] at hafter
      exact absurd (hafter.symm.trans htrue) Bool.false_ne_true

/-- `acquiresleep` is called without spinlocks. -/
theorem checked_acquiresleep {p : P}
    (hk : Checked (withSleeplocks Z rest rounds) rank (some p) .running [] k) :
    Checked (withSleeplocks Z rest rounds) rank (some p) .running [] (acquiresleep z ++ k) := by
  refine ⟨rfl, fun _ hh => absurd hh List.not_mem_nil, rfl, rfl, rfl, rfl,
    fun w hw => absurd hw not_ends_take, List.mem_cons_self, Or.inl rfl, ?_⟩
  rw [List.erase_cons_head]
  exact hk

/-- `releasesleep` wakes up the processes that sleep for the sleeplock. -/
theorem checked_releasesleep {p : P} (hrank : ∀ q, rank (.other (.inl z)) < rank (.proc q))
    (hk : Checked (withSleeplocks Z rest rounds) rank (some p) .running [] k) :
    Checked (withSleeplocks Z rest rounds) rank (some p) .running []
    (releasesleep rest.procs p z ++ k) := by
  refine ⟨rfl, fun _ hh => absurd hh List.not_mem_nil, rfl, fun w hw => ?_, ?_⟩
  · rw [eq_of_ends_drop hw]
    refine ⟨List.mem_cons_self, fun q hq hne => ?_⟩
    exact (wakes_wakeup rfl hq hne).append
  · have hwake : Checked (withSleeplocks Z rest rounds) rank (some p) .running [.other (.inl z)]
        (wakeup rest.procs (some p) (.inl z) ++ ([.release (.other (.inl z))] ++ k)) := by
      refine checked_wakeup _ (fun q l hl => ?_) ⟨List.mem_cons_self, Or.inl rfl, ?_⟩
      · rw [List.mem_singleton.mp hl]
        exact hrank q
      · rw [List.erase_cons_head]
        exact hk
    rw [← List.append_assoc] at hwake
    exact hwake

/-! ## The invariant -/

/-- The process has no thread. -/
def ProcState.Gone (st : ProcState) : Prop := st = .unused ∨ st = .zombie

/-- What the code of a process has to give back is what the sleeplocks say that it has, nothing when
it has exited; a sleeplock that it has found free stays free, since it holds the spinlock. -/
def Owns (before : Z → Z → Prop)
    (s : State P (Z ⊕ M) (Z ⊕ V) (SleepAct Z ⊕ B) C ((Z → Sleeplock P) × D)) (p : P) : Prop :=
  ∃ own got, Sections before own got (s.proc p).code ∧ own.Nodup ∧
    ((s.proc p).state.Gone → own = []) ∧
    (∀ z, z ∈ own ↔ (s.data.1 z).locked = true ∧ (s.data.1 z).pid = some p) ∧
    ∀ z, got = some z → (s.data.1 z).locked = false ∧
      ∃ c, (s.cpu c).cur = some p ∧ s.lock (.other (.inl z)) = some c

/-- **The invariant.** -/
structure Owned (before : Z → Z → Prop)
    (s : State P (Z ⊕ M) (Z ⊕ V) (SleepAct Z ⊕ B) C ((Z → Sleeplock P) × D)) : Prop where
  proc : ∀ p, Owns before s p
  plain : ∀ c, Plain (s.cpu c).code
  named : ∀ z, (s.data.1 z).locked = true → ∃ p, (s.data.1 z).pid = some p

/-- A process for which nothing changes. -/
theorem Owns.frame (h : Owns before s p) (hcode : (s'.proc p).code = (s.proc p).code)
    (hstate : (s'.proc p).state.Gone → (s.proc p).state.Gone) (hdata : s'.data.1 = s.data.1)
    (hguard : ∀ c z, (s.cpu c).cur = some p → s.lock (.other (.inl z)) = some c →
      (s'.cpu c).cur = some p ∧ s'.lock (.other (.inl z)) = some c) : Owns before s' p := by
  obtain ⟨own, got, hsec, hnodup, hgone, hown, hgot⟩ := h
  refine ⟨own, got, hcode ▸ hsec, hnodup, fun hst => hgone (hstate hst), hdata ▸ hown,
    fun z hz => ?_⟩
  obtain ⟨hfree, c, hcur, hlock⟩ := hgot z hz
  exact ⟨hdata ▸ hfree, c, hguard c z hcur hlock⟩

/-- **What one thread does keeps the invariant**, when it leaves the sleeplocks alone and
its own code is kept. -/
theorem Owned.local (h : Owned before s) (hl : Local c s s')
    (hdata : s'.data.1 = s.data.1) (hproc : ∀ p, (s.cpu c).cur = some p → Owns before s' p)
    (hplain : Plain (s'.cpu c).code) : Owned before s' := by
  refine ⟨fun p => ?_, fun c' => ?_, by rw [hdata]; exact h.named⟩
  · by_cases hp : (s.cpu c).cur = some p
    · exact hproc p hp
    · refine (h.proc p).frame (by rw [hl.proc p hp]) (by rw [hl.proc p hp]; exact id) hdata
        fun c' z hc' hlock => ?_
      have hne : c' ≠ c := by
        rintro rfl
        exact hp hc'
      exact ⟨by rw [hl.cpu c' hne]; exact hc', (hl.lock c' hne _).mpr hlock⟩
  · by_cases hc' : c' = c
    · rw [hc']
      exact hplain
    · rw [hl.cpu c' hc']
      exact h.plain c'

/-- The process of a CPU whose next instruction is not to take a sleeplock. -/
theorem Owned.sections (h : Owned before s) (hcur : (s.cpu c).cur = some p) (hcode : s.code c = k)
    (hk : ∀ z j, k ≠ .act (.inl (.take z)) :: j) : ∃ own, Sections before own none k ∧ own.Nodup ∧
      ((s.proc p).state.Gone → own = []) ∧
      ∀ z, z ∈ own ↔ (s.data.1 z).locked = true ∧ (s.data.1 z).pid = some p := by
  obtain ⟨own, got, hsec, hnodup, hgone, hown, -⟩ := h.proc p
  rw [State.code_of_some hcur] at hcode
  rw [hcode] at hsec
  cases got with
  | none => exact ⟨own, hsec, hnodup, hgone, hown⟩
  | some z =>
    cases hsec with
    | take order rest => exact absurd rfl (hk _ _)

/-- The code of a scheduler has nothing to do with sleeplocks. -/
theorem Owned.plain_of_none (h : Owned before s) (hcur : (s.cpu c).cur = none)
    (hcode : s.code c = k) : Plain k := by
  rw [State.code_of_none hcur] at hcode
  exact hcode ▸ h.plain c

/-- **A thread goes on** with code that has the same sleeplocks to give back. -/
theorem Owned.next (h : Owned before s) (hl : Local c s s') (hproc : s'.proc = s.proc)
    (hdata : s'.data.1 = s.data.1) (hcode : s.code c = k)
    (hk : ∀ z j, k ≠ .act (.inl (.take z)) :: j)
    (hsec : ∀ p, (s.cpu c).cur = some p → ∀ own, Sections before own none k →
      Sections before own none k')
    (hplain : (s.cpu c).cur = none → Plain k → Plain k')
    (hcpu : ∀ p, (s.cpu c).cur = some p → Plain (s'.cpu c).code) :
    Owned before (s'.setCode c k') := by
  have hcur' : ((s'.setCode c k').cpu c).cur = (s.cpu c).cur := State.cur_setCode.trans hl.cur
  refine h.local (hl.trans (Local.setCode ..)) (by rw [State.data_setCode, hdata])
    (fun p hp => ?_) ?_
  · obtain ⟨own, hold, hnodup, hgone, hown⟩ := h.sections hp hcode hk
    refine ⟨own, none, ?_, hnodup, ?_, by rw [State.data_setCode, hdata]; exact hown, nofun⟩
    · rw [← State.code_of_some (hcur'.trans hp), State.code_setCode]
      exact hsec p hp own hold
    · rw [State.state_setCode, hproc]
      exact hgone
  · cases hp : (s.cpu c).cur with
    | some p =>
      rw [State.cpu_setCode_of_some (hl.cur.trans hp)]
      exact hcpu p hp
    | none =>
      rw [← State.code_of_none (hcur'.trans hp), State.code_setCode]
      exact hplain hp (h.plain_of_none hp hcode)

/-- An instruction that has nothing to do with sleeplocks. -/
theorem Owned.plainly (h : Owned before s) (hl : Local c s s') (hproc : s'.proc = s.proc)
    (hdata : s'.data.1 = s.data.1)
    (hcode : s.code c = i :: k) (hi : i.Plain) (hcpu : (s'.cpu c).code = (s.cpu c).code) :
    Owned before (s'.setCode c k) := by
  refine h.next hl hproc hdata hcode ?_ (fun _ _ _ hsec => hsec.tail hi)
    (fun _ hk j hj => hk j (List.mem_cons_of_mem _ hj)) ?_
  · rintro z j hj
    cases hj
    exact hi
  · intro p hp
    rw [hcpu]
    exact h.plain c

/-- A thread changes its process, but for what the invariant is about. -/
theorem Owned.change (h : Owned before s) (hcur : (s.cpu c).cur = some p)
    (hcode : s.code c = i :: k) (hi : i.Plain)
    {pr : Proc P (Z ⊕ M) (Z ⊕ V) (SleepAct Z ⊕ B)} (hpr : pr.code = k)
    (hstate : pr.state.Gone → (s.proc p).state.Gone) : Owned before (s.setProc p pr) := by
  refine h.local (Local.setProc hcur pr) rfl (fun q hq => ?_) (h.plain c)
  rw [hcur] at hq
  obtain rfl := Option.some.inj hq
  obtain ⟨own, hsec, hnodup, hgone, hown⟩ :=
    h.sections hcur hcode (by rintro z j hj; cases hj; exact hi)
  refine ⟨own, none, ?_, hnodup, fun hst => hgone (hstate ?_), hown, nofun⟩
  · rw [State.proc_setProc, hpr]
    exact hsec.tail hi
  · rwa [State.proc_setProc] at hst

/-- A process exits. -/
theorem Owned.exit (h : Owned before s) (hcur : (s.cpu c).cur = some p)
    (hcode : s.code c = .setZombie :: k)
    {pr : Proc P (Z ⊕ M) (Z ⊕ V) (SleepAct Z ⊕ B)} (hpr : pr.code = k) :
    Owned before (s.setProc p pr) := by
  refine h.local (Local.setProc hcur pr) rfl (fun q hq => ?_) (h.plain c)
  rw [hcur] at hq
  obtain rfl := Option.some.inj hq
  obtain ⟨own, hsec, hnodup, -, hown⟩ := h.sections hcur hcode (by rintro z j ⟨⟩)
  cases hsec with
  | plain hi _ => exact hi.elim
  | exit rest =>
    refine ⟨[], none, ?_, hnodup, fun _ => rfl, hown, nofun⟩
    rw [State.proc_setProc, hpr]
    exact rest

/-- The state of a process changes, or whether it is killed. -/
theorem Owned.setProc (h : Owned before s) {pr : Proc P (Z ⊕ M) (Z ⊕ V) (SleepAct Z ⊕ B)}
    (hpr : pr.code = (s.proc p).code) (hstate : pr.state.Gone → (s.proc p).state.Gone) :
    Owned before (s.setProc p pr) := by
  refine ⟨fun q => ?_, h.plain, h.named⟩
  by_cases hq : q = p
  · subst hq
    refine (h.proc q).frame ?_ ?_ rfl fun c z hc hlock => ⟨hc, hlock⟩
    · exact (congrArg Proc.code State.proc_setProc).trans hpr
    · intro hgone
      rw [State.proc_setProc] at hgone
      exact hstate hgone
  · have hproc : (s.setProc p pr).proc q = s.proc q := State.proc_setProc_of_ne hq
    refine (h.proc q).frame (congrArg Proc.code hproc) ?_ rfl fun c z hc hlock => ⟨hc, hlock⟩
    intro hgone
    rwa [hproc] at hgone

theorem not_gone_runnable : ¬ ProcState.runnable.Gone := by
  rintro (hc | hc) <;> cases hc

theorem not_gone_running : ¬ ProcState.running.Gone := by
  rintro (hc | hc) <;> cases hc

theorem not_gone_sleeping : ¬ ProcState.sleeping.Gone := by
  rintro (hc | hc) <;> cases hc

/-- A process in a free slot begins, without sleeplocks. -/
theorem Owned.begin (h : Owned before s) (hrest : ∀ c, (s.cpu c).cur ≠ some p)
    (hst : (s.proc p).state = .unused) : Owned before (s.begin p) := by
  refine ⟨fun q => ?_, h.plain, h.named⟩
  by_cases hq : q = p
  · subst hq
    obtain ⟨own, -, -, -, hgone, hown, -⟩ := h.proc q
    obtain rfl := hgone (Or.inl hst)
    refine ⟨[], none, ?_, List.nodup_nil, fun _ => rfl, hown, nofun⟩
    rw [State.begin, State.proc_setProc]
    exact .plain trivial (.plain trivial .userret)
  · refine (h.proc q).frame ?_ ?_ rfl fun c z hc hlock => ⟨hc, hlock⟩
    · rw [State.begin, State.proc_setProc_of_ne hq]
    · rw [State.begin, State.proc_setProc_of_ne hq]
      exact id

/-- A round begins of the loop of `acquiresleep`, or of that of another condition. -/
theorem Owned.await (h : Owned before s) (hrounds : ∀ p v d, Plain (rounds p v d)) {w : Z ⊕ V}
    (hcode : s.code c = .await w :: k) (hcur : (s.cpu c).cur = some p) :
    Owned before (s.setCode c ((withSleeplocks Z rest rounds).round p w s.data ++
      .test w :: k)) := by
  refine h.next (Local.refl c s) rfl rfl hcode (by rintro z j ⟨⟩) (fun _ _ own hsec => ?_)
    (fun hnone => absurd (hcur.symm.trans hnone) (by simp)) fun _ _ => h.plain c
  cases w with
  | inl z =>
    cases hsec with
    | plain hi _ => exact hi.elim
    | await rest => exact .test rest
  | inr v => exact .append (hrounds p v s.data.2) (.plain trivial (hsec.tail trivial))

/-- The test of the loop. -/
theorem Owned.test (h : Owned before s) {w : Z ⊕ V} (hcode : s.code c = .test w :: k)
    (hcur : (s.cpu c).cur = some p)
    (hguard : s.lock (.other ((withSleeplocks Z rest rounds).guard w)) = some c) :
    Owned before (s.setCode c (if (withSleeplocks Z rest rounds).waits w s.data
      (s.proc p).killed then
      sleep p w ((withSleeplocks Z rest rounds).guard w) ++ .await w :: k else k)) := by
  by_cases hcond : (withSleeplocks Z rest rounds).waits w s.data (s.proc p).killed = true
  · rw [if_pos hcond]
    refine h.next (Local.refl c s) rfl rfl hcode (by rintro z j ⟨⟩) (fun _ _ own hsec => ?_)
      (fun hnone => absurd (hcur.symm.trans hnone) (by simp)) fun _ _ => h.plain c
    refine .append (plain_sleep _ _ _) ?_
    cases w with
    | inl z =>
      cases hsec with
      | plain hi _ => exact hi.elim
      | test rest => exact .await rest
    | inr v => exact .plain trivial (hsec.tail trivial)
  · rw [if_neg hcond]
    cases w with
    | inr v => exact h.plainly (Local.refl c s) rfl rfl hcode trivial rfl
    | inl z =>
      refine h.local (Local.setCode ..) (by rw [State.data_setCode]) (fun q hq => ?_) ?_
      · obtain ⟨own, hsec, hnodup, hgone, hown⟩ := h.sections hq hcode (by rintro z j ⟨⟩)
        have hfree : (s.data.1 z).locked = false := by
          cases hlocked : (s.data.1 z).locked with
          | false => rfl
          | true => exact absurd (congrArg (· && true) hlocked) hcond
        have hsec' : Sections before own (some z) k := by
          cases hsec with
          | test rest => exact rest
          | plain hi _ => exact hi.elim
        refine ⟨own, some z, ?_, hnodup, by rw [State.state_setCode]; exact hgone,
          by rw [State.data_setCode]; exact hown, fun z' hz' => ?_⟩
        · rw [← State.code_of_some (State.cur_setCode.trans hq), State.code_setCode]
          exact hsec'
        · obtain rfl := Option.some.inj hz'
          rw [State.data_setCode]
          refine ⟨hfree, c, State.cur_setCode.trans hq, ?_⟩
          rw [State.lock_setCode]
          exact hguard
      · rw [State.cpu_setCode_of_some hcur]
        exact h.plain c

/-- A process changes a sleeplock that no other process has. -/
theorem Owned.update (h : Owned before s) (hcur : (s.cpu c).cur = some p)
    {d : (Z → Sleeplock P) × D} {v : Sleeplock P}
    (hd : d.1 = Function.update s.data.1 z v)
    (hold : (s.data.1 z).locked = true → (s.data.1 z).pid = some p)
    (hv : v.locked = true → v.pid = some p)
    (hfree : ∀ c', c' ≠ c → s.lock (.other (.inl z)) = some c' → v.locked = false)
    (hrun : (s.proc p).state = .running) (hsec : Sections before own none k) (hnodup : own.Nodup)
    (hown : ∀ z', z' ∈ own ↔ (d.1 z').locked = true ∧ (d.1 z').pid = some p) :
    Owned before ({ s with data := d }.setCode c k) := by
  have hcur' : (({ s with data := d }.setCode c k).cpu c).cur = some p :=
    State.cur_setCode.trans hcur
  have hl := (Local.setData c s d).trans (Local.setCode c _ k)
  have hat : d.1 z = v := by rw [hd, Function.update_self]
  have hne : ∀ z', z' ≠ z → d.1 z' = s.data.1 z' := fun z' hz => by
    rw [hd, Function.update_of_ne hz]
  refine ⟨fun q => ?_, fun c' => ?_, fun z' hz' => ?_⟩
  · by_cases hq : q = p
    · subst hq
      refine ⟨own, none, ?_, hnodup, fun hst => ?_, by rw [State.data_setCode]; exact hown, nofun⟩
      · rw [← State.code_of_some hcur', State.code_setCode]
        exact hsec
      · have hrunning : (({ s with data := d }.setCode c k).proc q).state = .running :=
          State.state_setCode.trans hrun
        rw [hrunning] at hst
        exact absurd hst not_gone_running
    · have hcq : ∀ c', (s.cpu c').cur = some q → c' ≠ c := by
        rintro c' hc' rfl
        rw [hcur] at hc'
        exact hq (Option.some.inj hc').symm
      obtain ⟨own', got, hsec', hnodup', hgone', hown', hgot⟩ := h.proc q
      refine ⟨own', got, ?_, hnodup', ?_, fun z' => ?_, fun z' hz' => ?_⟩
      · rw [hl.proc q fun hc => hcq c hc rfl]
        exact hsec'
      · rw [hl.proc q fun hc => hcq c hc rfl]
        exact hgone'
      · rw [State.data_setCode, hown']
        by_cases hz : z' = z
        · -- it is not the other process that has the sleeplock, before and after
          rw [hz, hat]
          refine ⟨fun hc => absurd ((hold hc.1).symm.trans hc.2) ?_,
            fun hc => absurd ((hv hc.1).symm.trans hc.2) ?_⟩
          all_goals exact fun hc => hq (Option.some.inj hc).symm
        · rw [hne z' hz]
      · obtain ⟨hfree', c', hc', hguard⟩ := hgot z' hz'
        refine ⟨?_, c', State.cur_setCode.trans hc', by rw [State.lock_setCode]; exact hguard⟩
        rw [State.data_setCode]
        by_cases hz : z' = z
        · rw [hz] at hguard
          rw [hz, hat]
          exact hfree c' (hcq c' hc') hguard
        · rw [hne z' hz]
          exact hfree'
  · by_cases hc' : c' = c
    · rw [hc', (hl.home p hcur).2]
      exact h.plain c
    · rw [hl.cpu c' hc']
      exact h.plain c'
  · rw [State.data_setCode] at hz' ⊢
    by_cases hz : z' = z
    · rw [hz, hat] at hz' ⊢
      exact ⟨p, hv hz'⟩
    · rw [hne z' hz] at hz' ⊢
      exact h.named z' hz'

/-- A process that acts is in the state `RUNNING`. -/
theorem Inv.running_of_act {K : Kernel P (Z ⊕ M) (Z ⊕ V) (SleepAct Z ⊕ B) ((Z → Sleeplock P) × D)}
    (hinv : Inv K rank s)
    (hcur : (s.cpu c).cur = some p) {a : SleepAct Z ⊕ B} (hcode : s.code c = .act a :: k) :
    (s.proc p).state = .running := by
  obtain ⟨held, -, -, -, hst, -⟩ := hinv.holds hcode trivial
  rwa [threadState_of_some hcur] at hst

/-- The CPU that is about to take or to give back a sleeplock runs a process. -/
theorem Owned.cur (h : Owned before s) {a : SleepAct Z} (hcode : s.code c = .act (.inl a) :: k) :
    ∃ p, (s.cpu c).cur = some p := by
  cases hcur : (s.cpu c).cur with
  | some p => exact ⟨p, rfl⟩
  | none => exact absurd (h.plain_of_none hcur hcode _ List.mem_cons_self) id

/-- A process takes a sleeplock that it has found free. -/
theorem Owned.take (h : Owned before s) (hinv : Inv (withSleeplocks Z rest rounds) rank s)
    (hirrefl : ∀ z, ¬ before z z) (hcode : s.code c = .act (.inl (.take z)) :: k) :
    Owned before
      ({ s with
        data := (withSleeplocks Z rest rounds).perform (.inl (.take z)) (s.cpu c).proc s.data
        }.setCode c k) := by
  obtain ⟨p, hcur⟩ := h.cur hcode
  have hme : (s.cpu c).proc = some p := ((hinv.cpu c).home p hcur).1
  have hpcode : (s.proc p).code = .act (.inl (.take z)) :: k := by
    rw [← State.code_of_some hcur, hcode]
  have hrun := hinv.running_of_act hcur hcode
  obtain ⟨own, got, hsec, hnodup, -, hown, hgot⟩ := h.proc p
  rw [hpcode] at hsec
  cases hsec with
  | plain hi _ => exact hi.elim
  | take order rest' =>
    obtain ⟨hfree, c₀, hc₀, hguard⟩ := hgot z rfl
    obtain rfl := hinv.once c c₀ p hcur hc₀
    have hnew : z ∉ own := fun hc => hirrefl z (order z hc)
    have hd : ((withSleeplocks Z rest rounds).perform (.inl (.take z)) (s.cpu c).proc s.data).1 =
        Function.update s.data.1 z { locked := true, pid := some p } := by
      rw [hme]
      rfl
    refine h.update hcur hd (fun hc => ?_) (fun _ => rfl) (fun c' hc' hheld => ?_) hrun rest'
      (List.nodup_cons.mpr ⟨hnew, hnodup⟩) fun z' => ?_
    · rw [hfree] at hc
      cases hc
    · rw [hguard] at hheld
      exact absurd (Option.some.inj hheld).symm hc'
    · rw [hd, List.mem_cons]
      by_cases hz : z' = z
      · rw [hz, Function.update_self]
        exact ⟨fun _ => ⟨rfl, rfl⟩, fun _ => Or.inl rfl⟩
      · rw [Function.update_of_ne hz, ← hown]
        exact ⟨fun hc => hc.resolve_left hz, Or.inr⟩

/-- A process gives a sleeplock back. -/
theorem Owned.drop (h : Owned before s) (hinv : Inv (withSleeplocks Z rest rounds) rank s)
    (hcode : s.code c = .act (.inl (.drop z)) :: k) :
    Owned before
      ({ s with
        data := (withSleeplocks Z rest rounds).perform (.inl (.drop z)) (s.cpu c).proc s.data
        }.setCode c k) := by
  obtain ⟨p, hcur⟩ := h.cur hcode
  obtain ⟨own, hsec, hnodup, -, hown⟩ := h.sections hcur hcode (by rintro z j ⟨⟩)
  cases hsec with
  | plain hi _ => exact hi.elim
  | drop mine rest' =>
    have hd : ((withSleeplocks Z rest rounds).perform (.inl (.drop z)) (s.cpu c).proc s.data).1 =
        Function.update s.data.1 z {} := rfl
    refine h.update hcur hd (fun _ => ((hown z).mp mine).2) nofun (fun _ _ _ => rfl)
      (hinv.running_of_act hcur hcode) rest' (hnodup.erase z) fun z' => ?_
    rw [hd, hnodup.mem_erase_iff]
    by_cases hz : z' = z
    · rw [hz, Function.update_self]
      exact ⟨fun hc => absurd rfl hc.1, fun hc => absurd hc.1 Bool.false_ne_true⟩
    · rw [Function.update_of_ne hz, ← hown]
      exact ⟨fun hc => hc.2, fun hc => ⟨hz, hc⟩⟩

/-- **An instruction keeps the invariant.** -/
theorem Effect.owned (heff : Effect (withSleeplocks Z rest rounds) s c k i s')
    (hirrefl : ∀ z, ¬ before z z) (hrounds : ∀ p v d, Plain (rounds p v d))
    (hinv : Inv (withSleeplocks Z rest rounds) rank s) (hcode : s.code c = i :: k)
    (h : Owned before s) : Owned before s' := by
  cases heff with
  -- `plainly` covers the instructions that no section of a sleeplock is about.
  | acquire =>
    refine h.next (Local.pushOff c s) rfl rfl hcode (by rintro z j ⟨⟩) (fun _ _ own hsec => ?_) ?_
      fun _ _ => ?_
    · exact .plain trivial (hsec.tail trivial)
    · intro _ hk j hj
      rcases List.mem_cons.mp hj with rfl | hin
      · trivial
      · exact hk j (List.mem_cons_of_mem _ hin)
    · rw [State.pushOff, State.cpu_setCpu]
      exact h.plain c
  | taken free =>
    exact h.plainly (Local.setLock (Or.inl free) (Or.inr rfl)) rfl rfl hcode trivial rfl
  | spins => exact h
  | release mine pos =>
    exact h.plainly (Local.release mine rfl ⟨rfl, rfl⟩) rfl rfl hcode trivial
      (by rw [State.cpu_setCpu])
  | @act a =>
    cases a with
    | inr b => exact h.plainly (Local.setData c s _) rfl rfl hcode trivial rfl
    -- The two actions of the sleeplocks change who owns one.
    | inl a =>
      cases a with
      | take z => exact h.take hinv hirrefl hcode
      | drop z => exact h.drop hinv hcode
  | await cur => exact h.await hrounds hcode cur
  | test cur guard => exact h.test hcode cur guard
  | sleeping cur => exact h.change cur hcode trivial rfl fun hc => absurd hc not_gone_sleeping
  | setRunnable cur => exact h.change cur hcode trivial rfl fun hc => absurd hc not_gone_runnable
  | setZombie cur => exact h.exit cur hcode rfl
  | clearChan cur => exact h.change cur hcode trivial rfl id
  -- The process leaves the processor with all it owns, in the code that `sched` puts by.
  | @switch p cur only noff =>
    obtain ⟨own, hsec, hnodup, hgone, hown⟩ := h.sections cur hcode (by rintro z j ⟨⟩)
    refine ⟨fun q => ?_, fun c' => ?_, h.named⟩
    · by_cases hq : q = p
      · subst hq
        refine ⟨own, none, ?_, hnodup, ?_, hown, (by simp)⟩
        · rw [State.proc_setCpu, State.proc_setProc]
          exact .plain trivial (hsec.tail trivial)
        · rw [State.proc_setCpu, State.proc_setProc]
          exact hgone
      · refine (h.proc q).frame ?_ ?_ rfl fun c' z hc' hlock => ⟨?_, hlock⟩
        · rw [State.proc_setCpu, State.proc_setProc_of_ne hq]
        · rw [State.proc_setCpu, State.proc_setProc_of_ne hq]
          exact id
        -- an owner that still runs elsewhere
        · have hne : c' ≠ c := by
            rintro rfl
            rw [cur] at hc'
            exact hq (Option.some.inj hc').symm
          rw [State.cpu_setCpu_of_ne hne]
          exact hc'
    · by_cases hc' : c' = c
      · rw [hc', State.cpu_setCpu]
        exact h.plain c
      · rw [State.cpu_setCpu_of_ne hc']
        exact h.plain c'
  | restore cur =>
    exact h.plainly (Local.setCpu rfl fun _ _ => ⟨rfl, rfl⟩) rfl rfl hcode trivial
      (by rw [State.cpu_setCpu])
  -- A process made runnable has not exited, so what it owns stays owned.
  | @woken q w lock cur asleep =>
    have hrouse : Owned before (s.rouse q) := h.setProc rfl fun hc => absurd hc not_gone_runnable
    exact hrouse.plainly (Local.refl c _) rfl rfl (code_rouse.trans hcode) trivial rfl
  | passed lock awake => exact h.plainly (Local.refl c s) rfl rfl hcode trivial rfl
  | @killed q =>
    have hkilled : Owned before (s.setProc q { s.proc q with killed := true }) := h.setProc rfl id
    exact hkilled.plainly (Local.refl c _) rfl rfl (code_setKilled.trans hcode) trivial rfl
  | @roused q lock cur asleep =>
    have hkilled : Owned before (s.setProc q { s.proc q with killed := true }) := h.setProc rfl id
    have hrouse : Owned before ((s.setProc q { s.proc q with killed := true }).rouse q) :=
      hkilled.setProc rfl fun hc => absurd hc not_gone_runnable
    exact hrouse.plainly (Local.refl c _) rfl rfl (code_rouse.trans (code_setKilled.trans hcode))
      trivial rfl
  | started rest unused =>
    exact (h.begin rest unused).plainly (Local.refl c _) rfl rfl
      ((code_setProc_of_resting rest).trans hcode) trivial rfl
  | occupied => exact h.plainly (Local.refl c s) rfl rfl hcode trivial rfl
  | @freed q rest zombie =>
    have hfree : Owned before (s.freeproc q) := h.setProc rfl fun _ => Or.inr zombie
    exact hfree.plainly (Local.refl c _) rfl rfl ((code_setProc_of_resting rest).trans hcode)
      trivial rfl
  | alive => exact h.plainly (Local.refl c s) rfl rfl hcode trivial rfl
  -- The chosen process brings its own code with it; the scheduler's own is plain.
  | @dispatch p cur only noff runnable =>
    have hplain := h.plain_of_none cur hcode
    refine ⟨fun q => ?_, fun c' => ?_, h.named⟩
    · refine (h.proc q).frame ?_ ?_ rfl fun c' z hc' hlock => ⟨?_, hlock⟩
      · by_cases hq : q = p
        · rw [hq, State.proc_setCpu, State.proc_setProc]
        · rw [State.proc_setCpu, State.proc_setProc_of_ne hq]
      · by_cases hq : q = p
        · rw [hq, State.proc_setCpu, State.proc_setProc]
          exact fun hc => absurd hc not_gone_running
        · rw [State.proc_setCpu, State.proc_setProc_of_ne hq]
          exact id
      · have hne : c' ≠ c := by
          rintro rfl
          rw [cur] at hc'
          cases hc'
        rw [State.cpu_setCpu_of_ne hne]
        exact hc'
    · by_cases hc' : c' = c
      · rw [hc', State.cpu_setCpu]
        intro j hj
        rcases List.mem_cons.mp hj with rfl | hin
        · trivial
        · exact hplain j (List.mem_cons_of_mem _ hin)
      · rw [State.cpu_setCpu_of_ne hc']
        exact h.plain c'
  | skip => exact h.plainly (Local.refl c s) rfl rfl hcode trivial rfl
  | clearProc cur =>
    exact h.plainly (Local.setCpu rfl fun p hp => absurd (cur.symm.trans hp) (by simp)) rfl
      rfl hcode trivial (by rw [State.cpu_setCpu])
  | intrOn =>
    exact h.plainly (Local.setCpu rfl fun _ _ => ⟨rfl, rfl⟩) rfl rfl hcode trivial
      (by rw [State.cpu_setCpu])
  | intrOff =>
    exact h.plainly (Local.setCpu rfl fun _ _ => ⟨rfl, rfl⟩) rfl rfl hcode trivial
      (by rw [State.cpu_setCpu])
  | sret =>
    exact h.plainly (Local.setCpu rfl fun _ _ => ⟨rfl, rfl⟩) rfl rfl hcode trivial
      (by rw [State.cpu_setCpu])
  -- A process returns to user space between two sections, with nothing owned.
  | userret free =>
    refine h.next (Local.setCpu rfl fun _ _ => ⟨rfl, rfl⟩) rfl rfl hcode (by rintro z j ⟨⟩)
      (fun _ _ own hsec => ?_) ?_ fun _ _ => ?_
    · cases hsec with
      | userret => exact .done
      | plain hi _ => exact hi.elim
    · exact fun _ _ _ hj => absurd hj List.not_mem_nil
    · rw [State.cpu_setCpu]
      exact h.plain c

/-- The code of a program uses sleeplocks in the order `before`: a process in turn, and handlers not
at all. -/
structure Program.Sections (prog : Program P (Z ⊕ M) (Z ⊕ V) (SleepAct Z ⊕ B))
    (rounds : P → V → D → List (Instr P (Z ⊕ M) (Z ⊕ V) (SleepAct Z ⊕ B))) (before : Z → Z → Prop) :
    Prop where
  irrefl : ∀ z, ¬ before z z
  round : ∀ p v d, Plain (rounds p v d)
  handler : ∀ me code, prog.handler me code → Plain code
  entry : ∀ p code, prog.entry p code → Sched.Sections before [] none code

/-- A CPU that takes interrupts does not take a sleeplock. -/
theorem Owned.not_taking (h : Owned before s) (hinv : Inv (withSleeplocks Z rest rounds) rank s)
    (hsie : (s.cpu c).sie = true) : ∀ z j, s.code c ≠ .act (.inl (.take z)) :: j := by
  intro z j hcode
  obtain ⟨p, hcur⟩ := h.cur hcode
  obtain ⟨own, got, hsec, -, -, -, hgot⟩ := h.proc p
  rw [← State.code_of_some hcur, hcode] at hsec
  cases hsec with
  | plain hi _ => exact hi.elim
  | take order rest' =>
    obtain ⟨-, c', hc', hguard⟩ := hgot z rfl
    obtain rfl := hinv.once c c' p hcur hc'
    rw [hinv.sie_of_held hguard] at hsie
    cases hsie

/-- **Every step keeps the invariant.** -/
theorem Owned.step {prog : Program P (Z ⊕ M) (Z ⊕ V) (SleepAct Z ⊕ B)}
    (hprog : prog.Sections rounds before)
    (h : Owned before s) (hinv : Inv (withSleeplocks Z rest rounds) rank s)
    {e : Event P (Z ⊕ M) (Z ⊕ V) (SleepAct Z ⊕ B) C}
    (hstep : Step (withSleeplocks Z rest rounds) prog s e s') :
    Owned before s' := by
  cases hinv.change hstep with
  | instr code effect => exact effect.owned hprog.irrefl hprog.round hinv code h
  | user => exact h
  | @round c cur code =>
    exact h.next (Local.refl c s) rfl rfl code nofun (fun p hp => absurd (cur.symm.trans hp) nofun)
      (fun _ _ => plain_scheduler _) fun _ _ => h.plain c
  | @interrupt c handler henabled hallowed =>
    have hplain := hprog.handler _ _ hallowed
    refine h.next (Local.setCpu rfl fun _ _ => ⟨rfl, rfl⟩) rfl rfl rfl (h.not_taking hinv henabled)
      (fun _ _ own hsec => ?_) (fun _ hk j hj => ?_) fun _ _ => ?_
    · exact .append hplain (.plain trivial hsec)
    · rcases List.mem_append.mp hj with hin | hin
      · exact hplain j hin
      · rcases List.mem_cons.mp hin with rfl | hin
        · trivial
        · exact hk j hin
    · rw [State.cpu_setCpu]
      exact h.plain c
  | @enter c p code hcur huser hallowed =>
    refine h.next (Local.setCpu rfl fun _ _ => ⟨rfl, rfl⟩) rfl rfl huser nofun
      (fun q hq own hsec => ?_) (fun hnone => absurd (hcur.symm.trans hnone) nofun) fun _ _ => ?_
    · cases hsec with
      | done => exact hprog.entry p code hallowed
    · rw [State.cpu_setCpu]
      exact h.plain c

theorem Owned.boot (hboot : Boot s) (hfree : ∀ z, (s.data.1 z).locked = false) :
    Owned before s := by
  refine ⟨fun p => ⟨[], none, ?_, List.nodup_nil, fun _ => rfl, fun z => ?_, nofun⟩, fun c => ?_,
    fun z hz => ?_⟩
  · rcases hboot.proc p with ⟨-, hcode⟩ | ⟨-, hcode⟩
    · rw [hcode]
      exact .done
    · rw [hcode]
      exact .plain trivial (.plain trivial .userret)
  · rw [hfree z]
    exact ⟨fun hc => absurd hc List.not_mem_nil, fun hc => absurd hc.1 Bool.false_ne_true⟩
  · rw [(hboot.cpu c).2.2.2]
    exact fun _ hi => absurd hi List.not_mem_nil
  · rw [hfree z] at hz
    cases hz

/-! ## The results -/

/-- The invariants hold in every state that is reached. -/
theorem owned_of_run {prog : Program P (Z ⊕ M) (Z ⊕ V) (SleepAct Z ⊕ B)}
    (hprog : prog.Checked (withSleeplocks Z rest rounds) rank)
    (hcalm : prog.Calm (withSleeplocks Z rest rounds)) (hsec : prog.Sections rounds before)
    {s₀ : State P (Z ⊕ M) (Z ⊕ V) (SleepAct Z ⊕ B) C ((Z → Sleeplock P) × D)}
    {es : List (Event P (Z ⊕ M) (Z ⊕ V) (SleepAct Z ⊕ B) C)} (hboot : Boot s₀)
    (hfree : ∀ z, (s₀.data.1 z).locked = false)
    (hrun : Run (Step (withSleeplocks Z rest rounds) prog) s₀ es s) :
    (Waits (withSleeplocks Z rest rounds) s ∧ Parked (withSleeplocks Z rest rounds) s) ∧
    Owned before s := by
  have hrun' := hrun.invariant (I := fun s => Inv (withSleeplocks Z rest rounds) rank s ∧
    Owned before s)
    (fun _ _ _ ⟨hinv, howned⟩ hstep => ⟨hinv.step hprog hstep, howned.step hsec hinv hstep⟩)
    ⟨hboot.inv, Owned.boot hboot hfree⟩
  exact ⟨(waits_of_run hprog hcalm hboot hrun).2, hrun'.2⟩

/-- The process that the sleeplock says it has is the one that has still to give it back. -/
theorem Owned.holdingsleep (h : Owned before s) (hirrefl : ∀ z, ¬ before z z) (p : P) (z : Z) :
    holdingsleep s.data.1 p z = owes z (s.proc p).code := by
  obtain ⟨own, got, hsec, hnodup, -, hown, -⟩ := h.proc p
  rw [Bool.eq_iff_iff, ← hsec.mem_iff hirrefl hnodup, hown, Sched.holdingsleep, Bool.and_eq_true,
    decide_eq_true_iff]

/-- The sleeplocks of a process that sleeps for another one come before it. -/
theorem Owned.asleep (h : Owned before s) (hparked : Parked (withSleeplocks Z rest rounds) s)
    (hsleep : (s.proc p).state = .sleeping) (hchan : (s.proc p).chan = some (.inl z)) {z' : Z}
    (hlocked : (s.data.1 z').locked = true) (hpid : (s.data.1 z').pid = some p) : before z' z := by
  obtain ⟨k, hk⟩ := hparked p (.inl z) hsleep hchan
  obtain ⟨own, got, hsec, -, -, hown, -⟩ := h.proc p
  have hagain : Sections before own none (retest (withSleeplocks Z rest rounds) p (.inl z) k) := by
    rcases hk with hk | hk
    · rw [hk] at hsec
      cases hsec with
      | plain _ rest => exact rest
    · rw [hk] at hsec
      cases hsec with
      | plain _ rest => exact rest
  have hawait : Sections before own none (.await (.inl z) :: k) :=
    ((hagain.tail trivial).tail trivial).tail trivial
  cases hawait with
  | plain hi _ => exact hi.elim
  | await hgot =>
    cases hgot with
    | take order rest' => exact order z' ((hown z').mpr ⟨hlocked, hpid⟩)

/-- A process takes a sleeplock and gives it back. -/
def useLock (p : Fin 2) : List (Instr (Fin 2) (Unit ⊕ Unit) (Unit ⊕ Unit) (SleepAct Unit ⊕ Unit)) :=
  acquiresleep () ++ (releasesleep [0, 1] p () ++ [.userret])

/-- System calls that use the sleeplock. -/
def lockCalls : Program (Fin 2) (Unit ⊕ Unit) (Unit ⊕ Unit) (SleepAct Unit ⊕ Unit) where
  handler _ code := code = []
  entry p code := code = useLock p

instance (me : Option (Fin 2))
    (code : List (Instr (Fin 2) (Unit ⊕ Unit) (Unit ⊕ Unit) (SleepAct Unit ⊕ Unit))) :
    Decidable (lockCalls.handler me code) :=
  inferInstanceAs (Decidable (code = []))

instance (p : Fin 2) (code : List (Instr (Fin 2) (Unit ⊕ Unit) (Unit ⊕ Unit)
      (SleepAct Unit ⊕ Unit))) :
    Decidable (lockCalls.entry p code) :=
  inferInstanceAs (Decidable (code = useLock p))

/-- The sleeplock, and conditions that are false. -/
abbrev oneLock : Kernel (Fin 2) (Unit ⊕ Unit) (Unit ⊕ Unit) (SleepAct Unit ⊕ Unit)
    ((Unit → Sleeplock (Fin 2)) × Unit) :=
  withSleeplocks Unit computing fun _ _ _ => []

theorem lockCalls_checked : lockCalls.Checked oneLock lastRank where
  kernel := ⟨fun _ _ => Nat.one_pos, fun _ w _ _ h => by cases w <;> exact h⟩
  handler me code h := by
    obtain rfl := h
    exact ⟨rfl, rfl⟩
  entry p code h := by
    obtain rfl := h
    exact checked_acquiresleep (checked_releasesleep (fun _ => Nat.one_pos) ⟨rfl, rfl,
      rfl, rfl, rfl⟩)

theorem lockCalls_calm : lockCalls.Calm oneLock where
  round _ w _ := by
    cases w <;> exact fun _ => List.not_mem_nil
  handler me code h := by
    obtain rfl := h
    exact fun _ => List.not_mem_nil
  entry p code h := by
    obtain rfl := h
    simp [Calm, useLock, acquiresleep, releasesleep, wakeup]

theorem lockCalls_sections : lockCalls.Sections (fun (_ : Fin 2) (_ : Unit) (_ : Unit) => [])
    fun _ _ => (0 : Nat) < 0 where
  irrefl _ := Nat.lt_irrefl 0
  round _ _ _ _ hi := absurd hi List.not_mem_nil
  handler me code h := by
    obtain rfl := h
    exact fun _ hi => absurd hi List.not_mem_nil
  entry p code h := by
    obtain rfl := h
    exact .acquiresleep (fun _ ho => absurd ho List.not_mem_nil)
      (.releasesleep List.mem_cons_self .userret)

/-- Two CPUs enter `scheduler`, with two processes and the sleeplock free. -/
def bootLock :
    State (Fin 2) (Unit ⊕ Unit) (Unit ⊕ Unit) (SleepAct Unit ⊕ Unit) (Fin 2)
    ((Unit → Sleeplock (Fin 2)) × Unit) where
  lock _ := none
  proc p := { state := .runnable, code := forkret p }
  cpu _ := {}
  data := (fun _ => {}, ())

theorem boot_bootLock : Boot bootLock where
  lock _ := rfl
  cpu _ := ⟨rfl, rfl, rfl, rfl⟩
  proc _ := Or.inr ⟨rfl, rfl⟩

/-- The first process has the sleeplock; the second sleeps for it. -/
def contend : List (Event (Fin 2) (Unit ⊕ Unit) (Unit ⊕ Unit) (SleepAct Unit ⊕ Unit) (Fin 2)) :=
  [List.replicate 9 (.run 0), [.enter 0 (useLock 0)], List.replicate 6 (.run 0),
    List.replicate 13 (.run 1), [.enter 1 (useLock 1)], List.replicate 11 (.run 1)].flatten

set_option maxRecDepth 100000 in
theorem run_contend : ∃ s, Run (Step oneLock lockCalls) bootLock contend s ∧
    (s.proc 1).state = .sleeping ∧ (s.proc 1).chan = some (.inl ()) ∧
    s.lock (.other (.inl ())) = none := by
  have hsome : ((Run.after (State.next oneLock lockCalls) contend bootLock).map
      fun s => decide ((s.proc 1).state = .sleeping ∧ (s.proc 1).chan = some (.inl ()) ∧
        s.lock (.other (.inl ())) = none)) = some true := by
    decide +kernel
  obtain ⟨s, hs, htest⟩ := Option.map_eq_some_iff.mp hsome
  have hrun : Run.Meets (Step oneLock lockCalls) (fun _ _ => True) bootLock ([] ++ contend) s :=
    Run.meets_of_after (fun s e s' h =>
      ⟨trivial, (step_of_next oneLock h : Step oneLock lockCalls s e s')⟩) contend
      (.nil bootLock) hs
  exact ⟨s, hrun.run, of_decide_eq_true htest⟩

/-- **A sleeplock has one owner**: `holdingsleep` is true for the process that has still to give the
sleeplock back, and no two processes have. While the spinlock of it is free, a process sleeps for it
only if another one has it. -/
theorem sleeplock_owner {prog : Program P (Z ⊕ M) (Z ⊕ V) (SleepAct Z ⊕ B)}
    (hprog : prog.Checked (withSleeplocks Z rest rounds) rank)
    (hcalm : prog.Calm (withSleeplocks Z rest rounds)) (hsec : prog.Sections rounds before)
    {s₀ : State P (Z ⊕ M) (Z ⊕ V) (SleepAct Z ⊕ B) C ((Z → Sleeplock P) × D)}
    {es : List (Event P (Z ⊕ M) (Z ⊕ V) (SleepAct Z ⊕ B) C)} (hboot : Boot s₀)
    (hfree : ∀ z, (s₀.data.1 z).locked = false)
    (hrun : Run (Step (withSleeplocks Z rest rounds) prog) s₀ es s) :
    (∀ p z, holdingsleep s.data.1 p z = owes z (s.proc p).code) ∧
    (∀ p q z, owes z (s.proc p).code = true → owes z (s.proc q).code = true → p = q) ∧
    ∀ p ∈ rest.procs, ∀ z, (s.proc p).state = .sleeping → (s.proc p).chan = some (.inl z) →
      s.lock (.other (.inl z)) = none → ∃ q, q ≠ p ∧ owes z (s.proc q).code = true := by
  obtain ⟨⟨hwaits, hparked⟩, howned⟩ := owned_of_run hprog hcalm hsec hboot hfree hrun
  have howner : ∀ p z, owes z (s.proc p).code = true ↔ (s.data.1 z).locked = true ∧
    (s.data.1 z).pid = some p := by
    intro p z
    rw [← howned.holdingsleep hsec.irrefl, holdingsleep, Bool.and_eq_true, decide_eq_true_iff]
  refine ⟨howned.holdingsleep hsec.irrefl, fun p q z hp hq => ?_,
    fun p hin z hsleep hchan hlock => ?_⟩
  · exact Option.some.inj (((howner p z).mp hp).2.symm.trans ((howner q z).mp hq).2)
  · rcases hwaits.asleep p hin (.inl z) hsleep hchan with hlocked | ⟨c, hc, -⟩
    · obtain ⟨q, hq⟩ := howned.named z hlocked
      refine ⟨q, ?_, (howner q z).mpr ⟨hlocked, hq⟩⟩
      rintro rfl
      exact hsec.irrefl z (howned.asleep hparked hsleep hchan hlocked hq)
    · cases hlock.symm.trans hc

theorem sleeplock_owner_contended : ∃ s, Run (Step oneLock lockCalls) bootLock contend s ∧
    (s.proc 1).state = .sleeping ∧ ∃ q, q ≠ 1 ∧ owes () (s.proc q).code = true := by
  obtain ⟨s, hrun, hsleep, hchan, hlock⟩ := run_contend
  exact ⟨s, hrun, hsleep, (sleeplock_owner lockCalls_checked lockCalls_calm lockCalls_sections
    boot_bootLock (fun _ => rfl) hrun).2.2 1 (List.mem_finRange 1) () hsleep hchan hlock⟩

end Xv6.Sched
