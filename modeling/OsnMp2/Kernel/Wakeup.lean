import OsnMp2.Kernel.SchedInv

/-!
# No wakeup is lost

A process tests its condition with the lock of the condition held, and `sleep` takes `p->lock`
before it gives this lock back. Who ends the condition holds its lock until `wakeup` has taken the
lock of each process. So between the test and the moment in which the process is `SLEEPING`, a
wakeup can be due, but it cannot pass.

## Main definitions

* `Due`: the condition holds, or a CPU is about to wake the process up
* `Stage`: where a process is between its test and the moment in which it sleeps
* `Waits`: the invariant

## Main results

* `no_lost_wakeup`: a process that sleeps waits for its condition, or is about to be woken up
-/

set_option linter.unusedSectionVars false

namespace Xv6.Sched

variable {P L W A C σ : Type} [DecidableEq P] [DecidableEq L] [DecidableEq W] [DecidableEq C]
  {K : Kernel P L W A σ} {rank : Lock P L → Nat} {i : Instr P L W A} {k k' : List (Instr P L W A)}
  {l : Lock P L} {c c' : C} {p q : P} {w : W} {s s' : State P L W A C σ}

/-- Code in which no process goes to sleep but by `sleep` in the loop of its condition. -/
def Calm (k : List (Instr P L W A)) : Prop := ∀ w, .setSleeping w ∉ k

section

variable (K)

/-- The CPU wakes the process up before it gives back the lock of the condition. -/
def Pend (s : State P L W A C σ) (c : C) (p : P) (w : W) : Prop :=
  s.lock (.other (K.guard w)) = some c ∧ Wakes K p w (s.code c)

/-- The condition that a process waits for holds, or the process is about to be woken up. -/
def Due (s : State P L W A C σ) (p : P) (w : W) : Prop :=
  K.cond w s.data = true ∨ ∃ c, Pend K s c p w

/-- What is left of `sleep` behind `sched`, in the loop of the condition. -/
def retest (p : P) (w : W) (k : List (Instr P L W A)) : List (Instr P L W A) :=
  .clearChan :: .release (.proc p) :: .acquire (.other (K.guard w)) :: .await w :: k

/-- **From the test of its condition to sleep**: a process acquires its lock, with the lock of the
condition held; it holds both; it holds its own. -/
inductive Stage (s : State P L W A C σ) (c : C) (p : P) (w : W) : List (Instr P L W A) → Prop
  | tested {k : List (Instr P L W A)} (guard : s.lock (.other (K.guard w)) = some c)
      (cond : K.cond w s.data = true) (calm : Calm k) : Stage s c p w
        (.acquire (.proc p) :: .release (.other (K.guard w)) :: .setSleeping w :: .sched ::
         retest K p w k)
  | locking {k : List (Instr P L W A)} (guard : s.lock (.other (K.guard w)) = some c)
      (cond : K.cond w s.data = true) (calm : Calm k) : Stage s c p w
        (.spin (.proc p) :: .release (.other (K.guard w)) :: .setSleeping w :: .sched ::
         retest K p w k)
  | locked {k : List (Instr P L W A)} (guard : s.lock (.other (K.guard w)) = some c)
      (cond : K.cond w s.data = true) (lock : s.lock (.proc p) = some c) (calm : Calm k) :
      Stage s c p w (.release (.other (K.guard w)) :: .setSleeping w :: .sched :: retest K p w k)
  | leaving {k : List (Instr P L W A)} (lock : s.lock (.proc p) = some c) (due : p ∈ K.procs →
      Due K s p w) (calm : Calm k) : Stage s c p w (.setSleeping w :: .sched :: retest K p w k)

/-- The code of a CPU: no process goes to sleep in it, or its own is on the way to it. -/
def Front (s : State P L W A C σ) (c : C) : Prop :=
  Calm (s.code c) ∨ ∃ p w, (s.cpu c).cur = some p ∧ Stage K s c p w (s.code c)

/-- **The invariant.** -/
structure Waits (s : State P L W A C σ) : Prop where
  front : ∀ c, Front K s c
  calm : ∀ p, (∀ c, (s.cpu c).cur ≠ some p) → Calm (s.proc p).code
  home : ∀ c p, (s.cpu c).cur = some p → Calm (s.cpu c).code
  asleep : ∀ p ∈ K.procs, ∀ w, (s.proc p).state = .sleeping → (s.proc p).chan = some w → Due K s p w

end

theorem Calm.tail (h : Calm (i :: k)) : Calm k := fun w hw => h w (List.mem_cons_of_mem _ hw)

theorem Calm.append (h : Calm k) (h' : Calm k') : Calm (k ++ k') := fun w hw =>
  (List.mem_append.mp hw).elim (h w) (h' w)

theorem Calm.cons (hi : ∀ w, i ≠ .setSleeping w) (h : Calm k) : Calm (i :: k) := fun w hw =>
  (List.mem_cons.mp hw).elim (fun hc => hi w hc.symm) (h w)

theorem Calm.retest (h : Calm k) : Calm (retest K p w k) :=
  .cons nofun (.cons nofun (.cons nofun (.cons nofun h)))

theorem Kernel.cond_of_waits {d : σ} {killed : Bool} (h : K.waits w d killed = true) :
    K.cond w d = true :=
  (Bool.and_eq_true_iff.mp h).1

/-! ## What the others see -/

/-- A process stays due, when the CPU that takes a step keeps it so. -/
theorem Due.local (h : Due K s p w) (hinv : Inv K rank s) (hl : Local c s s')
    (hcond : K.cond w s.data = true → Due K s' p w) (hpend : Pend K s c p w → Due K s' p w) :
    Due K s' p w := by
  rcases h with htrue | ⟨c', hlock, hwakes⟩
  · exact hcond htrue
  · by_cases hc : c' = c
    · subst hc
      exact hpend ⟨hlock, hwakes⟩
    · refine Or.inr ⟨c', (hl.lock c' hc _).mpr hlock, ?_⟩
      rw [hinv.code_of_local hl hc]
      exact hwakes

/-- A CPU for which nothing changes. -/
theorem Front.frame (h : Front K s c) (hcur : (s'.cpu c).cur = (s.cpu c).cur)
    (hcode : s'.code c = s.code c) (hlock : ∀ l, s.lock l = some c → s'.lock l = some c)
    (hcond : ∀ w, s.lock (.other (K.guard w)) = some c → K.cond w s.data = true →
      K.cond w s'.data = true)
    (hdue : ∀ p ∈ K.procs, ∀ w, (s.cpu c).cur = some p → s.lock (.proc p) = some c → Due K s p w →
      Due K s' p w) :
    Front K s' c := by
  unfold Front
  rw [hcode, hcur]
  rcases h with hcalm | ⟨p, w, hp, hstage⟩
  · exact Or.inl hcalm
  · refine Or.inr ⟨p, w, hp, ?_⟩
    generalize s.code c = code at hstage
    cases hstage with
    | tested guard cond calm => exact .tested (hlock _ guard) (hcond w guard cond) calm
    | locking guard cond calm => exact .locking (hlock _ guard) (hcond w guard cond) calm
    | locked guard cond lock calm =>
      exact .locked (hlock _ guard) (hcond w guard cond) (hlock _ lock) calm
    | leaving lock due calm =>
      exact .leaving (hlock _ lock) (fun hin => hdue p hin w hp lock (due hin)) calm

/-- **What one thread does keeps the invariant**, when its own part of it is kept. -/
theorem Waits.local (h : Waits K s) (hinv : Inv K rank s) (hl : Local c s s')
    (hfront : Front K s' c)
    (hcond : ∀ w, s.lock (.other (K.guard w)) ≠ some c → K.cond w s.data = true →
      K.cond w s'.data = true)
    (hdue : ∀ p ∈ K.procs, ∀ w, (s.cpu c).cur ≠ some p → s.lock (.proc p) ≠ some c → Due K s p w →
      Due K s' p w)
    (hasleep : ∀ p ∈ K.procs, ∀ w, (s'.proc p).state = .sleeping → (s'.proc p).chan = some w →
      Due K s' p w) :
    Waits K s' := by
  have hcur : ∀ c', (s'.cpu c').cur = (s.cpu c').cur := by
    intro c'
    by_cases hc' : c' = c
    · rw [hc', hl.cur]
    · rw [hl.cpu c' hc']
  refine ⟨fun c' => ?_, fun p hp => ?_, fun c' p hp => ?_, hasleep⟩
  · by_cases hc' : c' = c
    · rw [hc']
      exact hfront
    · have hother : ∀ l, s.lock l = some c' → s.lock l ≠ some c := fun l hl' hc => by
        rw [hl'] at hc
        exact hc' (Option.some.inj hc)
      apply (h.front c').frame (hcur c') (hinv.code_of_local hl hc')
        (fun l => (hl.lock c' hc' l).mpr)
      · exact fun w hguard => hcond w (hother _ hguard)
      · exact fun p hin w hp hlock => hdue p hin w (fun hc => hc' (hinv.once c' c p hp hc))
          (hother _ hlock)
  · have hp' : ∀ c', (s.cpu c').cur ≠ some p := fun c' => hcur c' ▸ hp c'
    rw [hl.proc p (hp' c)]
    exact h.calm p hp'
  · rw [hcur] at hp
    by_cases hc' : c' = c
    · subst hc'
      rw [(hl.home p hp).2]
      exact h.home c' p hp
    · rw [hl.cpu c' hc']
      exact h.home c' p hp

/-- An instruction that leaves the data alone, and keeps what its CPU has to wake up. -/
theorem Waits.keep (h : Waits K s) (hinv : Inv K rank s) (hl : Local c s s') (hfront : Front K s' c)
    (hdata : s'.data = s.data) (hpend : ∀ p ∈ K.procs, ∀ w, Pend K s c p w → Pend K s' c p w)
    (hasleep : ∀ p ∈ K.procs, ∀ w, (s'.proc p).state = .sleeping → (s'.proc p).chan = some w →
      (s.proc p).state = .sleeping ∧ (s.proc p).chan = some w ∨ Due K s p w) : Waits K s' := by
  have hdue : ∀ p ∈ K.procs, ∀ w, Due K s p w → Due K s' p w := fun p hin w hdue =>
    hdue.local hinv hl (fun htrue => Or.inl (hdata ▸ htrue)) fun hp => Or.inr ⟨c, hpend p hin w hp⟩
  refine h.local hinv hl hfront (fun w _ htrue => hdata ▸ htrue) (fun p hin w _ _ => hdue p hin w)
    fun p hin w hst hchan => ?_
  rcases hasleep p hin w hst hchan with ⟨hst', hchan'⟩ | hd
  · exact hdue p hin w (h.asleep p hin w hst' hchan')
  · exact hdue p hin w hd

/-- Waking up a process that sleeps. -/
theorem Waits.setProc (h : Waits K s) {pr : Proc P L W A} (hcode : pr.code = (s.proc p).code)
    (hasleep : ∀ w, pr.state = .sleeping → pr.chan = some w →
      (s.proc p).state = .sleeping ∧ (s.proc p).chan = some w) : Waits K (s.setProc p pr) := by
  have hcodes : ∀ c, (s.setProc p pr).code c = s.code c := fun c => code_setProc hcode
  have hdue : ∀ q w, Due K s q w → Due K (s.setProc p pr) q w := by
    rintro q w (htrue | ⟨c, hlock, hwakes⟩)
    · exact Or.inl htrue
    · exact Or.inr ⟨c, hlock, by rw [hcodes]; exact hwakes⟩
  refine ⟨fun c => ?_, fun q hq => ?_, h.home, fun q hin w hst hchan => ?_⟩
  · exact (h.front c).frame rfl (hcodes c) (fun _ => id) (fun _ _ => id) fun q _ w _ _ => hdue q w
  · by_cases hqp : q = p
    · subst hqp
      rw [State.proc_setProc, hcode]
      exact h.calm q hq
    · rw [State.proc_setProc_of_ne hqp]
      exact h.calm q hq
  · apply hdue
    by_cases hqp : q = p
    · subst hqp
      rw [State.proc_setProc] at hst hchan
      obtain ⟨hst', hchan'⟩ := hasleep w hst hchan
      exact h.asleep q hin w hst' hchan'
    · rw [State.proc_setProc_of_ne hqp] at hst hchan
      exact h.asleep q hin w hst hchan

/-- A process that rests changes, and does not sleep then. -/
theorem Waits.setResting (h : Waits K s) {pr : Proc P L W A} (hrest : ∀ c, (s.cpu c).cur ≠ some p)
    (hcalm : Calm pr.code) (hawake : pr.state ≠ .sleeping) : Waits K (s.setProc p pr) := by
  have hcodes : ∀ c, (s.setProc p pr).code c = s.code c := fun c => code_setProc_of_resting hrest
  have hdue : ∀ q w, Due K s q w → Due K (s.setProc p pr) q w := by
    rintro q w (htrue | ⟨c, hlock, hwakes⟩)
    · exact Or.inl htrue
    · exact Or.inr ⟨c, hlock, by rw [hcodes]; exact hwakes⟩
  refine ⟨fun c => ?_, fun q hq => ?_, h.home, fun q hin w hst hchan => ?_⟩
  · exact (h.front c).frame rfl (hcodes c) (fun _ => id) (fun _ _ => id) fun q _ w _ _ => hdue q w
  · by_cases hqp : q = p
    · subst hqp
      rw [State.proc_setProc]
      exact hcalm
    · rw [State.proc_setProc_of_ne hqp]
      exact h.calm q hq
  · by_cases hqp : q = p
    · subst hqp
      rw [State.proc_setProc] at hst
      exact absurd hst hawake
    · rw [State.proc_setProc_of_ne hqp] at hst hchan
      exact hdue q w (h.asleep q hin w hst hchan)

theorem calm_forkret (p : P) : Calm (forkret p : List (Instr P L W A)) := by
  simp [Calm, forkret]

theorem Waits.begin (h : Waits K s) (hrest : ∀ c, (s.cpu c).cur ≠ some p) : Waits K (s.begin p) :=
  h.setResting hrest (calm_forkret p) ProcState.noConfusion

theorem Waits.freeproc (h : Waits K s) (hrest : ∀ c, (s.cpu c).cur ≠ some p) :
    Waits K (s.freeproc p) :=
  h.setResting hrest (h.calm p hrest) ProcState.noConfusion

/-! ## Instructions -/

theorem Stage.ne (h : Stage K s c p w (i :: k)) : i = .acquire (.proc p) ∨ i = .spin (.proc p) ∨
    i = .release (.other (K.guard w)) ∨ i = .setSleeping w := by
  cases h
  · exact Or.inl rfl
  · exact Or.inr (Or.inl rfl)
  · exact Or.inr (Or.inr (Or.inl rfl))
  · exact Or.inr (Or.inr (Or.inr rfl))

/-- The instructions that `sleep` is not at, and that neither end a wait nor wake up. -/
def Instr.Neutral : Instr P L W A → Prop
  | .acquire _ | .spin _ | .release _ | .setSleeping _ | .act _ | .await _ | .test _ | .wake .. =>
    False
  | _ => True

theorem Front.calm (h : Front K s c) (hcode : s.code c = i :: k)
    (hi : ∀ l, i ≠ .acquire l ∧ i ≠ .spin l ∧ i ≠ .release l)
    (hsleep : ∀ w, i ≠ .setSleeping w) : Calm (i :: k) := by
  rcases h with hcalm | ⟨p, w, -, hstage⟩
  · rwa [hcode] at hcalm
  · rw [hcode] at hstage
    rcases hstage.ne with hc | hc | hc | hc
    · exact absurd hc (hi _).1
    · exact absurd hc (hi _).2.1
    · exact absurd hc (hi _).2.2
    · exact absurd hc (hsleep _)

theorem Instr.Neutral.calm (h : i.Neutral) (hf : Front K s c) (hcode : s.code c = i :: k) :
    Calm (i :: k) := by
  refine hf.calm hcode (fun l => ⟨?_, ?_, ?_⟩) fun w => ?_
  all_goals
    rintro rfl
    exact h

/-- A neutral instruction; the state of its process does not become `SLEEPING`. -/
theorem Waits.neutral (h : Waits K s) (hinv : Inv K rank s) (hcode : s.code c = i :: k)
    (hi : i.Neutral)
    (hl : Local c s s') (hcode' : s'.code c = k) (hlock : s'.lock = s.lock)
    (hdata : s'.data = s.data)
    (hproc : ∀ p w, (s'.proc p).state = .sleeping → (s'.proc p).chan = some w →
      (s.proc p).state = .sleeping ∧ (s.proc p).chan = some w) : Waits K s' := by
  have hcalm := hi.calm (h.front c) hcode
  refine h.keep hinv hl (Or.inl ?_) hdata (fun p _ w hpend => ?_) fun p _ w hst hchan =>
    Or.inl (hproc p w hst hchan)
  · rw [hcode']
    exact hcalm.tail
  · obtain ⟨hheld, hwakes⟩ := hpend
    rw [hcode] at hwakes
    refine ⟨by rw [hlock]; exact hheld, ?_⟩
    rw [hcode']
    cases i
    all_goals first | exact hi.elim | exact hwakes

/-- A thread goes on with other code, in a state in which it has changed locks and flags. -/
theorem Waits.next (h : Waits K s) (hinv : Inv K rank s) (hcode : s.code c = k) (hl : Local c s s')
    (hdata : s'.data = s.data) (hproc : s'.proc = s.proc)
    (hfront : Calm k' ∨ ∃ p w, (s.cpu c).cur = some p ∧ Stage K (s'.setCode c k') c p w k')
    (hpend : ∀ p ∈ K.procs, ∀ w, s.lock (.other (K.guard w)) = some c → Wakes K p w k →
      s'.lock (.other (K.guard w)) = some c ∧ Wakes K p w k') : Waits K (s'.setCode c k') := by
  have hl' := hl.trans (Local.setCode c s' k')
  refine h.keep hinv hl' ?_ (State.data_setCode.trans hdata) (fun p hin w hp => ?_)
    fun p _ w hst hchan => Or.inl ?_
  · unfold Front
    rw [State.code_setCode, hl'.cur]
    exact hfront
  · obtain ⟨hheld, hwakes⟩ := hp
    rw [hcode] at hwakes
    obtain ⟨hheld', hwakes'⟩ := hpend p hin w hheld hwakes
    refine ⟨by rwa [State.lock_setCode], ?_⟩
    rw [State.code_setCode]
    exact hwakes'
  · rw [State.state_setCode, hproc] at hst
    rw [State.chan_setCode, hproc] at hchan
    exact ⟨hst, hchan⟩

theorem Waits.acquire (h : Waits K s) (hinv : Inv K rank s) (hcode : s.code c = .acquire l :: k) :
    Waits K ((s.pushOff c).setCode c (.spin l :: k)) := by
  refine h.next hinv hcode (Local.pushOff c s) rfl rfl ?_ fun p _ w hheld hwakes => ⟨hheld, hwakes⟩
  rcases h.front c with hcalm | ⟨p, w, hp, hstage⟩
  · rw [hcode] at hcalm
    exact Or.inl (hcalm.tail.cons nofun)
  · refine Or.inr ⟨p, w, hp, ?_⟩
    rw [hcode] at hstage
    cases hstage with
    | tested guard cond calm =>
      exact .locking (by rwa [State.lock_setCode]) (by rwa [State.data_setCode]) calm

/-- The lock is taken. -/
theorem Waits.spin (h : Waits K s) (hinv : Inv K rank s) (hcode : s.code c = .spin l :: k)
    (hfree : s.lock l = none) :
    Waits K ((s.setLock l (some c)).setCode c k) := by
  have hlock : ∀ l', s.lock l' = some c → (s.setLock l (some c)).lock l' = some c := by
    intro l' hl'
    by_cases hl : l' = l
    · rw [hl, State.lock_setLock]
    · rw [State.lock_setLock_of_ne hl, hl']
  refine h.next hinv hcode (Local.setLock (Or.inl hfree) (Or.inr rfl)) rfl rfl ?_
    fun p _ w hheld hwakes =>
    ⟨hlock _ hheld, hwakes⟩
  rcases h.front c with hcalm | ⟨p, w, hp, hstage⟩
  · rw [hcode] at hcalm
    exact Or.inl hcalm.tail
  · refine Or.inr ⟨p, w, hp, ?_⟩
    rw [hcode] at hstage
    cases hstage with
    | locking guard cond calm =>
      refine .locked ?_ (by rwa [State.data_setCode]) ?_ calm
      · rw [State.lock_setCode]
        exact hlock _ guard
      · rw [State.lock_setCode, State.lock_setLock]

/-- The lock is given back: of the condition, by a process that has tested it, or by one that
has woken up all others. -/
theorem Waits.release (h : Waits K s) (hinv : Inv K rank s) (hcode : s.code c = .release l :: k)
    (hheld : s.lock l = some c) {cpu : Cpu P L W A} (hcur : cpu.cur = (s.cpu c).cur)
    (hcpu : cpu.proc = (s.cpu c).proc ∧ cpu.code = (s.cpu c).code) :
    Waits K (((s.setLock l none).setCpu c cpu).setCode c k) := by
  have hl := Local.release hheld hcur hcpu
  have hlock : ∀ l', l' ≠ l → s.lock l' = some c →
    ((s.setLock l none).setCpu c cpu).lock l' = some c := by
    intro l' hne hl'
    rw [State.lock_setCpu, State.lock_setLock_of_ne hne, hl']
  refine h.next hinv hcode hl rfl rfl ?_ fun p _ w hguard hwakes =>
    ⟨hlock _ (Ne.symm hwakes.1) hguard, hwakes.2⟩
  rcases h.front c with hcalm | ⟨p, w, hp, hstage⟩
  · rw [hcode] at hcalm
    exact Or.inl hcalm.tail
  · refine Or.inr ⟨p, w, hp, ?_⟩
    rw [hcode] at hstage
    cases hstage with
    | locked guard cond lock calm =>
      refine .leaving ?_ (fun _ => Or.inl (by rwa [State.data_setCode])) calm
      rw [State.lock_setCode]
      exact hlock _ nofun lock

/-- A round of the loop around `sleep` begins. -/
theorem Waits.await (h : Waits K s) (hinv : Inv K rank s) (hround : ∀ p w d, Calm (K.round p w d))
    (hcode : s.code c = .await w :: k) :
    Waits K (s.setCode c (K.round p w s.data ++ .test w :: k)) := by
  have hcalm : Calm (.await w :: k) := (h.front c).calm hcode (fun _ => ⟨nofun, nofun, nofun⟩) nofun
  exact h.next hinv hcode (Local.refl c s) rfl rfl
    (Or.inl ((hround p w s.data).append (hcalm.tail.cons nofun))) fun _ _ _ _ hwakes => hwakes.elim

/-- The test of the loop. -/
theorem Waits.test (h : Waits K s) (hinv : Inv K rank s) (hcode : s.code c = .test w :: k)
    (hcur : (s.cpu c).cur = some p) (hguard : s.lock (.other (K.guard w)) = some c) :
    Waits K (s.setCode c (if K.waits w s.data (s.proc p).killed then sleep p w (K.guard w) ++
      .await w :: k else k)) := by
  have hcalm : Calm (.test w :: k) := (h.front c).calm hcode (fun _ => ⟨nofun, nofun, nofun⟩) nofun
  refine h.next hinv hcode (Local.refl c s) rfl rfl ?_ fun _ _ _ _ hwakes => hwakes.elim
  by_cases hcond : K.waits w s.data (s.proc p).killed = true
  · rw [if_pos hcond]
    exact Or.inr ⟨p, w, hcur, .tested (by rwa [State.lock_setCode])
      (by rw [State.data_setCode]; exact K.cond_of_waits hcond) hcalm.tail⟩
  · rw [if_neg hcond]
    exact Or.inl hcalm.tail

/-- An action, which may end what others wait for. -/
theorem Waits.act (h : Waits K s) (hinv : Inv K rank s) {a : A} (hcode : s.code c = .act a :: k) :
    Waits K ({ s with data := K.perform a (s.cpu c).proc s.data }.setCode c k) := by
  obtain ⟨held, -, hmem, -, hst, hann, -⟩ := hinv.holds hcode trivial
  have hcalm : Calm (.act a :: k) := (h.front c).calm hcode (fun _ => ⟨nofun, nofun, nofun⟩) nofun
  -- the condition still holds, or the others are about to be woken up
  have hends : ∀ w, K.cond w s.data = true → K.cond w (K.perform a (s.cpu c).proc s.data) = true ∨
      s.lock (.other (K.guard w)) = some c ∧ ∀ q ∈ K.procs, (s.cpu c).cur ≠ some q →
      Wakes K q w k := by
    intro w hcond
    cases hafter : K.cond w (K.perform a (s.cpu c).proc s.data) with
    | true => exact Or.inl rfl
    | false =>
      obtain ⟨hin, hwakes⟩ := hann w ⟨_, _, hcond, hafter⟩
      exact Or.inr ⟨(hmem _).mp hin, hwakes⟩
  have hl := (Local.setData c s (K.perform a (s.cpu c).proc s.data)).trans (Local.setCode c _ k)
  have hpend : ∀ p w, s.lock (.other (K.guard w)) = some c → Wakes K p w k →
      Pend K ({ s with data := K.perform a (s.cpu c).proc s.data }.setCode c k) c p w := by
    intro p w hheld hwakes
    refine ⟨by rwa [State.lock_setCode], ?_⟩
    rw [State.code_setCode]
    exact hwakes
  have hdue : ∀ p ∈ K.procs, ∀ w, (s.cpu c).cur ≠ some p → Due K s p w →
      Due K ({ s with data := K.perform a (s.cpu c).proc s.data }.setCode c k) p w := by
    intro p hin w hcur hd
    refine hd.local hinv hl (fun hcond => ?_) fun hp => ?_
    · rcases hends w hcond with htrue | ⟨hheld, hwakes⟩
      · exact Or.inl (by rw [State.data_setCode]; exact htrue)
      · exact Or.inr ⟨c, hpend p w hheld (hwakes p hin hcur)⟩
    · have hwakes := hp.2
      rw [hcode] at hwakes
      exact Or.inr ⟨c, hpend p w hp.1 hwakes⟩
  refine h.local hinv hl (Or.inl ?_) (fun w hguard hcond => ?_)
    (fun p hin w hcur _ => hdue p hin w hcur) fun p hin w hsleep hchan => ?_
  · rw [State.code_setCode]
    exact hcalm.tail
  · rw [State.data_setCode]
    exact (hends w hcond).resolve_right fun hc => hguard hc.1
  · rw [State.state_setCode] at hsleep
    rw [State.chan_setCode] at hchan
    refine hdue p hin w (fun hcur => ?_) (h.asleep p hin w hsleep hchan)
    -- the process that acts does not sleep
    rw [threadState_of_some hcur] at hst
    rw [show (s.proc p).state = _ from hsleep] at hst
    cases hst

/-- A process in the loop of `wakeup`. -/
theorem Waits.wake (h : Waits K s) (hinv : Inv K rank s) (hcode : s.code c = .wake q w :: k)
    (hasleep : (s.proc q).state = .sleeping → (s.proc q).chan.map K.chan ≠ some (K.chan w)) :
    Waits K (s.setCode c k) := by
  obtain ⟨held, -, hmem, -, -, hme, hin, -⟩ := hinv.holds hcode trivial
  have hlock : s.lock (.proc q) = some c := (hmem _).mp hin
  have hcalm : Calm (.wake q w :: k) :=
    (h.front c).calm hcode (fun _ => ⟨nofun, nofun, nofun⟩) nofun
  have hl := Local.setCode c s k
  have hdue : ∀ p w', (p ≠ q ∨ K.chan w ≠ K.chan w') → Due K s p w' →
    Due K (s.setCode c k) p w' := by
    intro p w' hne hd
    refine hd.local hinv hl (fun hcond => Or.inl (by rwa [State.data_setCode])) fun hp =>
      Or.inr ⟨c, ?_, ?_⟩
    · rw [State.lock_setCode]
      exact hp.1
    · have hwakes := hp.2
      rw [hcode] at hwakes
      rw [State.code_setCode]
      refine hwakes.resolve_left ?_
      rintro ⟨rfl, hchan⟩
      exact hne.elim (fun hc => hc rfl) fun hc => hc hchan
  refine h.local hinv hl (Or.inl ?_) (fun w' _ hcond => by rwa [State.data_setCode])
    (fun p hin' w' _ hp => ?_) fun p hin' w' hsleep hchan => ?_
  · rw [State.code_setCode]
    exact hcalm.tail
  · refine hdue p w' (Or.inl ?_)
    rintro rfl
    exact hp hlock
  · rw [State.state_setCode] at hsleep
    rw [State.chan_setCode] at hchan
    refine hdue p w' ?_ (h.asleep p hin' w' hsleep hchan)
    by_contra hc
    obtain ⟨rfl, heq⟩ := not_or.mp hc |>.imp not_not.mp not_not.mp
    exact hasleep hsleep (by rw [hchan, Option.map_some, heq])

/-- A process goes to sleep. -/
theorem Waits.setSleeping (h : Waits K s) (hinv : Inv K rank s)
    (hcode : s.code c = .setSleeping w :: k) (hcur : (s.cpu c).cur = some p) :
    Waits K (s.setProc p { s.proc p with
      chan := some w
      state := .sleeping
      code := k }) := by
  have hl := Local.setProc hcur { s.proc p with
    chan := some w
    state := .sleeping
    code := k }
  have hcode' : (s.setProc p { s.proc p with
      chan := some w
      state := .sleeping
      code := k }).code c = k := by
    have hcur' : ((s.setProc p { s.proc p with
      chan := some w
      state := .sleeping
      code := k }).cpu c).cur = some p := hcur
    rw [State.code_of_some hcur', State.proc_setProc]
  obtain ⟨hcalm, hdue⟩ : Calm k ∧ (p ∈ K.procs → Due K s p w) := by
    rcases h.front c with hcalm | ⟨p', w', hp', hstage⟩
    · rw [hcode] at hcalm
      exact absurd List.mem_cons_self (hcalm w)
    · rw [hcode] at hstage
      rw [hcur] at hp'
      obtain rfl := Option.some.inj hp'
      cases hstage with
      | leaving lock due calm => exact ⟨calm.retest.cons nofun, due⟩
  refine h.keep hinv hl (Or.inl (by rwa [hcode'])) rfl (fun q _ w' hp => ⟨hp.1, ?_⟩)
    fun q hin w' hsleep hchan => ?_
  · have hwakes := hp.2
    rw [hcode] at hwakes
    rw [hcode']
    exact hwakes
  · by_cases hq : q = p
    · subst hq
      rw [State.proc_setProc] at hchan
      obtain rfl := Option.some.inj hchan
      exact Or.inr (hdue hin)
    · rw [State.proc_setProc_of_ne hq] at hsleep hchan
      exact Or.inl ⟨hsleep, hchan⟩

/-! ## Switches -/

/-- A thread leaves a CPU, or comes to it, with no other lock than that of its process: it
has nobody to wake up. -/
theorem Waits.switched (h : Waits K s) (hlock : s'.lock = s.lock) (hdata : s'.data = s.data)
    (honly : ∀ lk, s.lock (.other lk) ≠ some c) (hcpu : ∀ c', c' ≠ c → s'.cpu c' = s.cpu c')
    (hproc : ∀ q, q ≠ p → s'.proc q = s.proc q) (hother : ∀ c', c' ≠ c → (s.cpu c').cur ≠ some p)
    (hfront : Calm (s'.code c)) (hhome : ∀ q, (s'.cpu c).cur = some q → Calm (s'.cpu c).code)
    (hcalm : Calm (s'.proc p).code)
    (hrest : ∀ q, q ≠ p → (∀ c', (s'.cpu c').cur ≠ some q) → Calm (s.proc q).code)
    (hasleep : ∀ w, (s'.proc p).state = .sleeping → (s'.proc p).chan = some w →
      (s.proc p).state = .sleeping ∧ (s.proc p).chan = some w) : Waits K s' := by
  have hcode : ∀ c', c' ≠ c → s'.code c' = s.code c' := fun c' hc' =>
    code_congr (hcpu c' hc') fun q hq => by
      rw [hproc q]
      rintro rfl
      exact hother c' hc' hq
  have hdue : ∀ q w, Due K s q w → Due K s' q w := by
    rintro q w (hcond | ⟨c', hheld, hwakes⟩)
    · exact Or.inl (hdata ▸ hcond)
    · have hc' : c' ≠ c := by
        rintro rfl
        exact honly _ hheld
      exact Or.inr ⟨c', hlock ▸ hheld, by rw [hcode c' hc']; exact hwakes⟩
  refine ⟨fun c' => ?_, fun q hq => ?_, fun c' q hq => ?_, fun q hin w hsleep hchan => ?_⟩
  · by_cases hc' : c' = c
    · rw [hc']
      exact Or.inl hfront
    · exact (h.front c').frame (congrArg Cpu.cur (hcpu c' hc')) (hcode c' hc')
        (fun _ hl => hlock ▸ hl) (fun _ _ hc => hdata ▸ hc) fun q _ w _ _ => hdue q w
  · by_cases hqp : q = p
    · rw [hqp]
      exact hcalm
    · rw [hproc q hqp]
      exact hrest q hqp hq
  · by_cases hc' : c' = c
    · subst hc'
      exact hhome q hq
    · rw [hcpu c' hc'] at hq ⊢
      exact h.home c' q hq
  · apply hdue
    by_cases hqp : q = p
    · subst hqp
      obtain ⟨hsleep', hchan'⟩ := hasleep w hsleep hchan
      exact h.asleep q hin w hsleep' hchan'
    · rw [hproc q hqp] at hsleep hchan
      exact h.asleep q hin w hsleep hchan

/-- `sched`. -/
theorem Waits.switch (h : Waits K s) (hinv : Inv K rank s) (hcode : s.code c = .sched :: k)
    (hcur : (s.cpu c).cur = some p) (honly : ∀ lk, s.lock (.other lk) ≠ some c) (intena : Bool) :
    Waits K ((s.setProc p { s.proc p with intena := intena, code := .restoreIntena :: k }).setCpu c
      { s.cpu c with cur := none }) := by
  have hcalm : Calm (.sched :: k) := (h.front c).calm hcode (fun _ => ⟨nofun, nofun, nofun⟩) nofun
  refine h.switched (p := p) (c := c) rfl rfl honly (fun c' hc' => State.cpu_setCpu_of_ne hc')
    (fun q hq => State.proc_setProc_of_ne hq) (fun c' hc' hc => hc' (hinv.once c' c p hc hcur)) ?_
    (fun q hq => ?_) ?_ (fun q hqp hq => ?_) fun w hsleep hchan => ?_
  · rw [State.code_of_none (by rw [State.cpu_setCpu]), State.cpu_setCpu]
    exact h.home c p hcur
  · rw [State.cpu_setCpu] at hq
    cases hq
  · rw [State.proc_setCpu, State.proc_setProc]
    exact hcalm.tail.cons nofun
  · apply h.calm q
    intro c' hc'
    by_cases hcc : c' = c
    · rw [hcc, hcur] at hc'
      exact hqp (Option.some.inj hc').symm
    · exact hq c' (by rw [State.cpu_setCpu_of_ne hcc]; exact hc')
  · rw [State.proc_setCpu, State.proc_setProc] at hsleep hchan
    exact ⟨hsleep, hchan⟩

/-- `scheduler`, where it runs a process. -/
theorem Waits.dispatch (h : Waits K s) (hcode : s.code c = .dispatch p :: k)
    (hcur : (s.cpu c).cur = none)
    (honly : ∀ lk, s.lock (.other lk) ≠ some c) (hrest : ∀ c', (s.cpu c').cur ≠ some p) :
    Waits K ((s.setProc p { s.proc p with state := .running }).setCpu c
      { s.cpu c with proc := some p, cur := some p, code := .clearProc :: k }) := by
  have hcalm : Calm (.dispatch p :: k) :=
    (h.front c).calm hcode (fun _ => ⟨nofun, nofun, nofun⟩) nofun
  refine h.switched (p := p) (c := c) rfl rfl honly (fun c' hc' => State.cpu_setCpu_of_ne hc')
    (fun q hq => State.proc_setProc_of_ne hq) (fun c' _ => hrest c') ?_ (fun q _ => ?_) ?_
    (fun q hqp hq => ?_) fun w hsleep _ => ?_
  · rw [State.code_of_some (p := p) (by rw [State.cpu_setCpu]), State.proc_setCpu,
      State.proc_setProc]
    exact h.calm p hrest
  · rw [State.cpu_setCpu]
    exact hcalm.tail.cons nofun
  · rw [State.proc_setCpu, State.proc_setProc]
    exact h.calm p hrest
  · apply h.calm q
    intro c' hc'
    by_cases hcc : c' = c
    · rw [hcc, hcur] at hc'
      cases hc'
    · exact hq c' (by rw [State.cpu_setCpu_of_ne hcc]; exact hc')
  · rw [State.proc_setCpu, State.proc_setProc] at hsleep
    cases hsleep

/-- A neutral instruction changes flags of its CPU. -/
theorem Waits.flags (h : Waits K s) (hinv : Inv K rank s) (hcode : s.code c = i :: k)
    (hi : i.Neutral)
    (hl : Local c s s') (hlock : s'.lock = s.lock) (hdata : s'.data = s.data)
    (hproc : s'.proc = s.proc) : Waits K (s'.setCode c k) := by
  refine h.neutral hinv hcode hi (hl.trans (Local.setCode ..)) State.code_setCode ?_ ?_
    fun p w hsleep hchan => ?_
  · rw [State.lock_setCode, hlock]
  · rw [State.data_setCode, hdata]
  · rw [State.state_setCode, hproc] at hsleep
    rw [State.chan_setCode, hproc] at hchan
    exact ⟨hsleep, hchan⟩

/-- A thread changes its process, which does not go to sleep. -/
theorem Waits.own (h : Waits K s) (hinv : Inv K rank s) (hcode : s.code c = i :: k) (hi : i.Neutral)
    (hcur : (s.cpu c).cur = some p) {pr : Proc P L W A} (hpr : pr.code = k)
    (hawake : ∀ w, pr.state = .sleeping → pr.chan ≠ some w) : Waits K (s.setProc p pr) := by
  have hcur' : ((s.setProc p pr).cpu c).cur = some p := hcur
  refine h.neutral hinv hcode hi (Local.setProc hcur pr) ?_ rfl rfl fun q w hsleep hchan => ?_
  · rw [State.code_of_some hcur', State.proc_setProc, hpr]
  · by_cases hq : q = p
    · subst hq
      rw [State.proc_setProc] at hsleep hchan
      exact absurd hchan (hawake w hsleep)
    · rw [State.proc_setProc_of_ne hq] at hsleep hchan
      exact ⟨hsleep, hchan⟩

/-- **An instruction keeps the invariant.** -/
theorem Effect.waits (heff : Effect K s c k i s') (hinv : Inv K rank s)
    (hround : ∀ p w d, Calm (K.round p w d))
    (hcode : s.code c = i :: k) (h : Waits K s) : Waits K s' := by
  have hkilled : ∀ q : P, Waits K (s.setProc q { s.proc q with killed := true }) := fun q =>
    h.setProc rfl fun _ hsleep hchan => ⟨hsleep, hchan⟩
  have hkilled' : ∀ q : P, Inv K rank (s.setProc q { s.proc q with killed := true }) := fun q =>
    hinv.setProc rfl (Or.inl rfl)
  cases heff with
  -- Beside the locks and the data, the steps that matter are the tests, the marking, the switch and
  -- the wakeups; the others are `flags`.
  | acquire => exact h.acquire hinv hcode
  | taken free => exact h.spin hinv hcode free
  | spins => exact h
  | release mine pos => exact h.release hinv hcode mine rfl ⟨rfl, rfl⟩
  | act => exact h.act hinv hcode
  | await cur => exact h.await hinv hround hcode
  | test cur guard => exact h.test hinv hcode cur guard
  | sleeping cur => exact h.setSleeping hinv hcode cur
  | setRunnable cur => exact h.own hinv hcode trivial cur rfl (by simp)
  | setZombie cur => exact h.own hinv hcode trivial cur rfl (by simp)
  | clearChan cur => exact h.own hinv hcode trivial cur rfl (by simp)
  | switch cur only noff =>
    refine h.switch hinv hcode cur (fun lk hc => ?_) _
    -- `sched` is entered with the lock of the process alone, so not with the guard
    exact absurd ((only _).mpr hc) (by simp)
  | restore cur =>
    exact h.flags hinv hcode trivial (Local.setCpu rfl fun _ _ => ⟨rfl, rfl⟩) rfl rfl rfl
  | @woken q w lock cur asleep =>
    have hrouse : Waits K (s.rouse q) := h.setProc rfl (by simp)
    -- A process that is awake is due no wakeup any more.
    refine hrouse.wake (hinv.rouse lock cur asleep) (code_rouse.trans hcode) fun hsleep => ?_
    rw [State.rouse, State.proc_setProc] at hsleep
    cases hsleep
  | passed lock awake => exact h.wake hinv hcode awake
  | @killed q =>
    exact (hkilled q).flags (hkilled' q) (code_setKilled.trans hcode) trivial (Local.refl c _)
      rfl rfl rfl
  | @roused q lock cur asleep =>
    have hrouse : Waits K ((s.setProc q { s.proc q with killed := true }).rouse q) :=
      (hkilled q).setProc rfl (by simp)
    exact hrouse.flags ((hkilled' q).rouse lock cur (state_setKilled asleep))
      (code_rouse.trans (code_setKilled.trans hcode)) trivial (Local.refl c _) rfl rfl rfl
  | started rest unused =>
    exact (h.begin rest).flags (hinv.begin rest) ((code_setProc_of_resting rest).trans hcode)
      trivial (Local.refl c _) rfl rfl rfl
  | occupied => exact h.flags hinv hcode trivial (Local.refl c s) rfl rfl rfl
  | freed rest zombie =>
    exact (h.freeproc rest).flags (hinv.freeproc rest) ((code_setProc_of_resting rest).trans hcode)
      trivial (Local.refl c _) rfl rfl rfl
  | alive => exact h.flags hinv hcode trivial (Local.refl c s) rfl rfl rfl
  | dispatch cur only noff runnable =>
    refine h.dispatch hcode cur (fun lk hc => absurd ((only _).mpr hc) (by simp)) ?_
    refine hinv.resting_of_held ((only _).mp rfl) ?_ (by simp [cur])
    rw [runnable]
    exact ProcState.noConfusion
  | skip => exact h.flags hinv hcode trivial (Local.refl c s) rfl rfl rfl
  | clearProc cur =>
    exact h.flags hinv hcode trivial (Local.setCpu rfl fun p hp => absurd (cur.symm.trans hp)
      (by simp)) rfl rfl rfl
  | intrOn => exact h.flags hinv hcode trivial (Local.setCpu rfl fun _ _ => ⟨rfl, rfl⟩) rfl rfl rfl
  | intrOff => exact h.flags hinv hcode trivial (Local.setCpu rfl fun _ _ => ⟨rfl, rfl⟩) rfl rfl rfl
  | sret => exact h.flags hinv hcode trivial (Local.setCpu rfl fun _ _ => ⟨rfl, rfl⟩) rfl rfl rfl
  | userret free =>
    exact h.next hinv hcode (Local.setCpu rfl fun _ _ => ⟨rfl, rfl⟩) rfl rfl
      (Or.inl fun _ => List.not_mem_nil) fun _ _ _ hheld _ => absurd hheld (free _)

theorem calm_scheduler (procs : List P) : Calm (scheduler procs : List (Instr P L W A)) := by
  simp [Calm, scheduler]

/-! ## What a process that sleeps does next -/

/-- A process that sleeps tests its condition again when it runs. -/
def Parked (K : Kernel P L W A σ) (s : State P L W A C σ) : Prop :=
  ∀ p w, (s.proc p).state = .sleeping → (s.proc p).chan = some w →
    ∃ k, (s.proc p).code = .sched :: retest K p w k ∨
    (s.proc p).code = .restoreIntena :: retest K p w k

/-- A thread goes on; the one of a process that sleeps does nothing but `sched`. -/
theorem Parked.next (h : Parked K s) (hinv : Inv K rank s) (hcode : s.code c = i :: k)
    (hi : i ≠ .sched)
    (hproc : s'.proc = s.proc) (hcur : (s'.cpu c).cur = (s.cpu c).cur) :
    Parked K (s'.setCode c k') := by
  intro p w hsleep hchan
  rw [State.state_setCode, hproc] at hsleep
  rw [State.chan_setCode, hproc] at hchan
  obtain ⟨k₀, hk₀⟩ := h p w hsleep hchan
  by_cases hp : (s.cpu c).cur = some p
  · exfalso
    obtain ⟨held, -, -, -, hcheck⟩ := (hinv.cpu c).thread
    rw [threadState_of_some hp, hsleep] at hcheck
    rw [State.code_of_some hp] at hcode hcheck
    rcases hk₀ with hk₀ | hk₀
    · rw [hk₀] at hcode
      cases hcode
      exact hi rfl
    · rw [hk₀] at hcheck
      cases hcheck.2.2.1
  · refine ⟨k₀, ?_⟩
    rw [State.proc_setCode_of_ne (by rw [hcur]; exact hp), hproc]
    exact hk₀

/-- A thread without code gets some. -/
theorem Parked.idle (h : Parked K s) (hcode : s.code c = []) {cpu : Cpu P L W A}
    (hcur : cpu.cur = (s.cpu c).cur) : Parked K ((s.setCpu c cpu).setCode c k) := by
  intro p w hsleep hchan
  rw [State.state_setCode, State.proc_setCpu] at hsleep
  rw [State.chan_setCode, State.proc_setCpu] at hchan
  obtain ⟨k₀, hk₀⟩ := h p w hsleep hchan
  by_cases hp : (s.cpu c).cur = some p
  · rw [State.code_of_some hp] at hcode
    rcases hk₀ with hk₀ | hk₀ <;> rw [hk₀] at hcode <;> cases hcode
  · refine ⟨k₀, ?_⟩
    rw [State.proc_setCode_of_ne (by rw [State.cpu_setCpu, hcur]; exact hp), State.proc_setCpu]
    exact hk₀

/-- A process changes that does not sleep then, or sleeps as before. -/
theorem Parked.setProc (h : Parked K s) {pr : Proc P L W A}
    (hpr : ∀ w, pr.state = .sleeping → pr.chan = some w →
      ∃ k, pr.code = .sched :: retest K p w k ∨ pr.code = .restoreIntena :: retest K p w k) :
    Parked K (s.setProc p pr) := by
  intro q w hsleep hchan
  by_cases hq : q = p
  · subst hq
    rw [State.proc_setProc] at hsleep hchan ⊢
    exact hpr w hsleep hchan
  · rw [State.proc_setProc_of_ne hq] at hsleep hchan ⊢
    exact h q w hsleep hchan

/-- **An instruction keeps it.** -/
theorem Effect.parked (heff : Effect K s c k i s') (hinv : Inv K rank s) (hwaits : Waits K s)
    (hcode : s.code c = i :: k) (h : Parked K s) : Parked K s' := by
  cases heff with
  | acquire => exact h.next hinv hcode nofun rfl (Local.pushOff c s).cur
  | taken free => exact h.next hinv hcode nofun rfl rfl
  | spins => exact h
  | release mine pos => exact h.next hinv hcode nofun rfl (by rw [State.cpu_setCpu])
  | act => exact h.next hinv hcode nofun rfl rfl
  | await cur => exact h.next hinv hcode nofun rfl rfl
  | test cur guard => exact h.next hinv hcode nofun rfl rfl
  | @sleeping w p cur =>
    refine h.setProc fun w' _ hchan => ?_
    obtain rfl := Option.some.inj hchan
    -- Whoever executes this is in the middle of `sleep`, with `sched` next.
    rcases hwaits.front c with hcalm | ⟨p', w', hp', hstage⟩
    · rw [hcode] at hcalm
      exact absurd List.mem_cons_self (hcalm w)
    · rw [cur] at hp'
      obtain rfl := Option.some.inj hp'
      rw [hcode] at hstage
      cases hstage with
      | leaving lock due calm => exact ⟨_, Or.inl rfl⟩
  | setRunnable cur => exact h.setProc nofun
  | setZombie cur => exact h.setProc nofun
  | clearChan cur => exact h.setProc nofun
  | @switch p cur only noff =>
    refine Parked.setProc (s := s) h fun w hsleep hchan => ?_
    -- It was about to leave the processor, and now it has left.
    obtain ⟨k₀, hk₀ | hk₀⟩ := h p w hsleep hchan
    · rw [State.code_of_some cur, hk₀] at hcode
      cases hcode
      exact ⟨k₀, Or.inr rfl⟩
    · rw [State.code_of_some cur, hk₀] at hcode
      cases hcode
  | restore cur => exact h.next hinv hcode nofun rfl (by rw [State.cpu_setCpu])
  | @woken q w lock cur asleep =>
    have hrouse : Parked K (s.rouse q) := h.setProc nofun
    exact hrouse.next (hinv.rouse lock cur asleep) (code_rouse.trans hcode) nofun rfl rfl
  | passed lock awake => exact h.next hinv hcode nofun rfl rfl
  | @killed q =>
    have hkilled : Parked K (s.setProc q { s.proc q with killed := true }) := h.setProc (h q)
    exact hkilled.next (hinv.setProc rfl (Or.inl rfl)) (code_setKilled.trans hcode) nofun rfl rfl
  | @roused q lock cur asleep =>
    have hkilled : Parked K (s.setProc q { s.proc q with killed := true }) := h.setProc (h q)
    have hrouse : Parked K ((s.setProc q { s.proc q with killed := true }).rouse q) :=
      hkilled.setProc nofun
    have hinv' : Inv K rank (s.setProc q { s.proc q with killed := true }) :=
      hinv.setProc rfl (Or.inl rfl)
    exact hrouse.next (hinv'.rouse lock cur (state_setKilled asleep))
      (code_rouse.trans (code_setKilled.trans hcode)) nofun rfl rfl
  | @started q rest unused =>
    have hbegin : Parked K (s.begin q) := h.setProc nofun
    exact hbegin.next (hinv.begin rest) ((code_setProc_of_resting rest).trans hcode) nofun rfl rfl
  | occupied => exact h.next hinv hcode nofun rfl rfl
  | @freed q rest zombie =>
    have hfree : Parked K (s.freeproc q) := h.setProc nofun
    exact hfree.next (hinv.freeproc rest) ((code_setProc_of_resting rest).trans hcode) nofun rfl rfl
  | alive => exact h.next hinv hcode nofun rfl rfl
  | dispatch cur only noff runnable => exact Parked.setProc (s := s) h nofun
  | skip => exact h.next hinv hcode nofun rfl rfl
  | clearProc cur =>
    exact h.next hinv hcode nofun rfl (by rw [State.cpu_setCpu])
  | intrOn => exact h.next hinv hcode nofun rfl (by rw [State.cpu_setCpu])
  | intrOff => exact h.next hinv hcode nofun rfl (by rw [State.cpu_setCpu])
  | sret => exact h.next hinv hcode nofun rfl (by rw [State.cpu_setCpu])
  | userret free => exact h.next hinv hcode nofun rfl (by rw [State.cpu_setCpu])

/-! ## Runs -/

/-- The threads of a program go to sleep in the loop of a condition only. -/
structure Program.Calm (prog : Program P L W A) (K : Kernel P L W A σ) : Prop where
  round : ∀ p w d, Sched.Calm (K.round p w d)
  handler : ∀ me code, prog.handler me code → Sched.Calm code
  entry : ∀ p code, prog.entry p code → Sched.Calm code

theorem Stage.held (h : Stage K s c p w k) : ∃ l, s.lock l = some c := by
  cases h with
  | tested guard _ _ => exact ⟨_, guard⟩
  | locking guard _ _ => exact ⟨_, guard⟩
  | locked guard _ _ _ => exact ⟨_, guard⟩
  | leaving lock _ _ => exact ⟨_, lock⟩

/-- A CPU that takes interrupts runs no process that is on the way to sleep. -/
theorem Front.calm_of_sie (h : Front K s c) (hinv : Inv K rank s) (hsie : (s.cpu c).sie = true) :
    Calm (s.code c) := by
  rcases h with hcalm | ⟨p, w, -, hstage⟩
  · exact hcalm
  · obtain ⟨l, hl⟩ := hstage.held
    rw [hinv.sie_of_held hl] at hsie
    cases hsie

/-- **Every step keeps the invariant.** -/
theorem Waits.step {prog : Program P L W A} (hcalm : prog.Calm K) (h : Waits K s)
    (hinv : Inv K rank s) {e : Event P L W A C} (hstep : Step K prog s e s') : Waits K s' := by
  cases hinv.change hstep with
  | instr code effect => exact effect.waits hinv hcalm.round code h
  | user => exact h
  | round cur code =>
    exact h.next hinv code (Local.refl _ s) rfl rfl (Or.inl (calm_scheduler K.procs))
      fun _ _ _ _ hwakes => hwakes.elim
  | @interrupt c handler henabled hallowed =>
    have hfront := (h.front c).calm_of_sie hinv henabled
    refine h.next hinv rfl (Local.setCpu rfl fun _ _ => ⟨rfl, rfl⟩) rfl rfl (Or.inl ?_)
      fun _ _ w hheld _ => ?_
    · exact (hcalm.handler _ _ hallowed).append (hfront.cons nofun)
    · rw [hinv.sie_of_held hheld] at henabled
      cases henabled
  | @enter c p code hcur huser hallowed =>
    exact h.next hinv huser (Local.setCpu rfl fun _ _ => ⟨rfl, rfl⟩) rfl rfl
      (Or.inl (hcalm.entry p code hallowed)) fun _ _ _ _ hwakes => hwakes.elim

theorem Boot.waits (h : Boot s) : Waits K s := by
  refine ⟨fun c => Or.inl ?_, fun p _ => ?_, fun c p hc => ?_, fun p _ w hsleep _ => ?_⟩
  · obtain ⟨-, hcur, -, hcode⟩ := h.cpu c
    rw [State.code_of_none hcur, hcode]
    exact fun _ => List.not_mem_nil
  · rcases h.proc p with ⟨-, hcode⟩ | ⟨-, hcode⟩
    · rw [hcode]
      exact fun _ => List.not_mem_nil
    · rw [hcode]
      exact calm_forkret p
  · rw [(h.cpu c).2.1] at hc
    cases hc
  · rcases h.proc p with ⟨hst, -⟩ | ⟨hst, -⟩
    · rw [hst] at hsleep
      cases hsleep
    · rw [hst] at hsleep
      cases hsleep

/-- **Every step keeps it.** -/
theorem Parked.step {prog : Program P L W A} (h : Parked K s) (hinv : Inv K rank s)
    (hwaits : Waits K s) {e : Event P L W A C} (hstep : Step K prog s e s') : Parked K s' := by
  cases hinv.change hstep with
  | instr code effect => exact effect.parked hinv hwaits code h
  | user => exact h
  | @round c cur code =>
    intro p w hsleep hchan
    rw [State.setCode_of_none cur] at hsleep hchan ⊢
    exact h p w hsleep hchan
  | @interrupt c handler henabled hallowed =>
    cases hcode : s.code c with
    | cons i k =>
      have hi : i ≠ .sched := by
        rintro rfl
        obtain ⟨held, -, hmem, -, -, ⟨p, -, rfl⟩, -⟩ := hinv.holds hcode trivial
        rw [hinv.sie_of_held ((hmem _).mp (List.mem_singleton_self _))] at henabled
        cases henabled
      exact h.next hinv hcode hi rfl (by rw [State.cpu_setCpu])
    | nil => exact h.idle hcode rfl
  | @enter c p code hcur huser hallowed => exact h.idle huser rfl

theorem Boot.parked (h : Boot s) : Parked K s := by
  intro p w hsleep
  rcases h.proc p with ⟨hst, -⟩ | ⟨hst, -⟩
  · rw [hst] at hsleep
    cases hsleep
  · rw [hst] at hsleep
    cases hsleep

/-- The invariants hold in every state that is reached. -/
theorem waits_of_run {prog : Program P L W A} (hprog : prog.Checked K rank) (hcalm : prog.Calm K)
    {s₀ : State P L W A C σ} {es : List (Event P L W A C)} (hboot : Boot s₀)
    (hrun : Run (Step K prog) s₀ es s) : Inv K rank s ∧ Waits K s ∧ Parked K s :=
  hrun.invariant (I := fun s => Inv K rank s ∧ Waits K s ∧ Parked K s)
    (fun _ _ _ ⟨hinv, hwaits, hparked⟩ hstep =>
      ⟨hinv.step hprog hstep, hwaits.step hcalm hinv hstep, hparked.step hinv hwaits hstep⟩)
    ⟨hboot.inv, hboot.waits, hboot.parked⟩

/-- **No wakeup is lost**: where a process sleeps, what it waits for has not happened, or a CPU that
holds the lock of its condition has still to wake it up. -/
theorem no_lost_wakeup {prog : Program P L W A} (hprog : prog.Checked K rank) (hcalm : prog.Calm K)
    {s₀ : State P L W A C σ} {es : List (Event P L W A C)} (hboot : Boot s₀)
    (hrun : Run (Step K prog) s₀ es s) :
    ∀ p ∈ K.procs, ∀ w, (s.proc p).state = .sleeping → (s.proc p).chan = some w → Due K s p w :=
  (waits_of_run hprog hcalm hboot hrun).2.1.asleep

/-- Processes that wait while a flag is set. -/
def flagged : Kernel (Fin 2) Unit Unit Unit Bool where
  procs := [0, 1]
  perform _ _ _ := false
  cond _ d := d
  guard _ := ()

/-- A process waits for the flag to be cleared. -/
def waitFlag : List (Instr (Fin 2) Unit Unit Unit) :=
  [.acquire (.other ()), .await (), .release (.other ()), .userret]

/-- A process clears the flag. -/
def clearFlag (p : Fin 2) : List (Instr (Fin 2) Unit Unit Unit) :=
  .acquire (.other ()) :: .act () :: (wakeup [0, 1] (some p) () ++ [.release (.other ()), .userret])

/-- System calls that wait for the flag and clear it. -/
def flagCalls : Program (Fin 2) Unit Unit Unit where
  handler _ code := code = []
  entry p code := code = waitFlag ∨ code = clearFlag p

instance (me : Option (Fin 2)) (code : List (Instr (Fin 2) Unit Unit Unit)) :
    Decidable (flagCalls.handler me code) :=
  inferInstanceAs (Decidable (code = []))

instance (p : Fin 2) (code : List (Instr (Fin 2) Unit Unit Unit)) :
    Decidable (flagCalls.entry p code) :=
  inferInstanceAs (Decidable (code = waitFlag ∨ code = clearFlag p))

theorem flagCalls_checked : flagCalls.Checked flagged lastRank where
  kernel := ⟨fun _ _ => Nat.one_pos, fun _ _ _ _ h => h⟩
  handler me code h := by
    obtain rfl := h
    exact ⟨rfl, rfl⟩
  entry p code h := by
    have hlast : Checked flagged lastRank (some p) .running [.other ()] [.release (.other ()),
      .userret] :=
      ⟨List.mem_cons_self, Or.inl rfl, rfl, rfl, rfl, rfl, rfl⟩
    rcases h with rfl | rfl
    · exact ⟨rfl, nofun, rfl, rfl, rfl, hlast⟩
    · refine ⟨rfl, nofun, rfl, fun w _ => ⟨List.mem_cons_self, fun q _ hne => ?_⟩, ?_⟩
      · exact wakes_wakeup rfl (List.mem_finRange q) hne
      · refine checked_wakeup _ (fun q l hl => ?_) hlast
        rw [List.mem_singleton.mp hl]
        exact Nat.one_pos

theorem flagCalls_calm : flagCalls.Calm flagged where
  round _ _ _ _ := List.not_mem_nil
  handler me code h := by
    obtain rfl := h
    exact fun _ => List.not_mem_nil
  entry p code h := by
    rcases h with rfl | rfl
    · simp [Calm, waitFlag]
    · simp [Calm, clearFlag, wakeup]

/-- Two CPUs enter `scheduler`, with two processes and the flag set. -/
def bootFlag : State (Fin 2) Unit Unit Unit (Fin 2) Bool where
  lock _ := none
  proc p := { state := .runnable, code := forkret p }
  cpu _ := {}
  data := true

theorem boot_bootFlag : Boot bootFlag where
  lock _ := rfl
  cpu _ := ⟨rfl, rfl, rfl, rfl⟩
  proc _ := Or.inr ⟨rfl, rfl⟩

/-- The first process goes to sleep; the second clears the flag and has still to wake it up. -/
def clearWhileAsleep : List (Event (Fin 2) Unit Unit Unit (Fin 2)) :=
  [List.replicate 9 (.run 0), [.enter 0 waitFlag], List.replicate 11 (.run 0),
    List.replicate 14 (.run 1), [.enter 1 (clearFlag 1)], List.replicate 3 (.run 1)].flatten

set_option maxRecDepth 100000 in
theorem no_lost_wakeup_due : ∃ s, Run (Step flagged flagCalls) bootFlag clearWhileAsleep s ∧
    s.data = false ∧ (s.proc 0).state = .sleeping ∧ Due flagged s 0 () := by
  have hsome : ((Run.after (State.next flagged flagCalls) clearWhileAsleep bootFlag).map
      fun s => decide (s.data = false ∧ (s.proc 0).state = .sleeping ∧ (s.proc 0).chan = some ())) =
      some true := by
    decide +kernel
  obtain ⟨s, hs, htest⟩ := Option.map_eq_some_iff.mp hsome
  have hrun : Run.Meets (Step flagged flagCalls) (fun _ _ => True) bootFlag ([] ++
    clearWhileAsleep) s :=
    Run.meets_of_after (fun s e s' h =>
      ⟨trivial, (step_of_next flagged h : Step flagged flagCalls s e s')⟩)
      clearWhileAsleep (.nil bootFlag) hs
  obtain ⟨hdata, hsleep, hchan⟩ := of_decide_eq_true htest
  exact ⟨s, hrun.run, hdata, hsleep,
    no_lost_wakeup flagCalls_checked flagCalls_calm boot_bootFlag hrun.run 0 List.mem_cons_self
    () hsleep hchan⟩

end Xv6.Sched
