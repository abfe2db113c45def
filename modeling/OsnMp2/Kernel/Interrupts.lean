import OsnMp2.Kernel.SchedInv

/-!
# Interrupts do not nest

An interrupt puts its handler and the `sret` of `kernelvec` in front of what a thread has to do.
While the `sret` is still to come, interrupts stay off: `push_off` remembers that they are,
`pop_off` does not enable them, and a handler that yields carries this with it to another CPU, since
`sched` saves `intena` for its thread. So a kernel stack holds the frame of at most one interrupt.

## Main definitions

* `Quiet`: code that leaves interrupts alone
* `Nested`: code with at most one interrupt in it
* `Flat`: the invariant

## Main results

* `interrupts_flat`: no thread is interrupted twice
-/

set_option linter.unusedSectionVars false

namespace Xv6.Sched

variable {P L W A C σ : Type} [DecidableEq P] [DecidableEq L] [DecidableEq W] [DecidableEq C]
  {K : Kernel P L W A σ} {rank : Lock P L → Nat} {i : Instr P L W A} {k k' : List (Instr P L W A)}
  {l : Lock P L} {c c' : C} {p : P} {s s' : State P L W A C σ}

/-! ## Code -/

/-- An instruction that does not enable interrupts, leave the kernel, or run a process. -/
def Instr.Quiet : Instr P L W A → Prop
  | .sret | .intrOn | .userret | .dispatch _ => False
  | _ => True

/-- Code that leaves interrupts alone. -/
def Quiet (k : List (Instr P L W A)) : Prop := ∀ i ∈ k, i.Quiet

/-- At most one interrupt is still to return, and nothing in front of its `sret` enables
interrupts. -/
def Nested (k : List (Instr P L W A)) : Prop :=
  .sret ∉ k ∨ ∃ pre post, k = pre ++ .sret :: post ∧ Quiet pre ∧ .sret ∉ post

theorem Nested.tail (h : Nested (i :: k)) : Nested k := by
  rcases h with hno | ⟨pre, post, heq, hquiet, hpost⟩
  · exact Or.inl fun hc => hno (List.mem_cons_of_mem _ hc)
  · cases pre with
    | nil =>
      cases heq
      exact Or.inl hpost
    | cons j pre =>
      cases heq
      exact Or.inr ⟨pre, post, rfl, fun i hi => hquiet i (List.mem_cons_of_mem _ hi), hpost⟩

/-- An instruction in front of the `sret`. -/
theorem Nested.head (h : Nested (i :: k)) (hk : .sret ∈ k) : i.Quiet := by
  rcases h with hno | ⟨pre, post, heq, hquiet, hpost⟩
  · exact absurd (List.mem_cons_of_mem _ hk) hno
  · cases pre with
    | nil =>
      cases heq
      exact absurd hk hpost
    | cons j pre =>
      cases heq
      exact hquiet i List.mem_cons_self

theorem Nested.append (h : Quiet k) (h' : Nested k') : Nested (k ++ k') := by
  have hsret : .sret ∉ k := fun hc => h .sret hc
  rcases h' with hno | ⟨pre, post, rfl, hquiet, hpost⟩
  · exact Or.inl fun hc => (List.mem_append.mp hc).elim hsret hno
  · refine Or.inr ⟨k ++ pre, post, by rw [List.append_assoc], fun i hi => ?_, hpost⟩
    exact (List.mem_append.mp hi).elim (h i) (hquiet i)

theorem Nested.count_le [DecidableEq A] (h : Nested k) : k.count .sret ≤ 1 := by
  rcases h with hno | ⟨pre, post, rfl, hquiet, hpost⟩
  · rw [List.count_eq_zero_of_not_mem hno]
    exact Nat.zero_le 1
  · have hpre : .sret ∉ pre := fun hc => hquiet .sret hc
    rw [List.count_append, List.count_cons_self, List.count_eq_zero_of_not_mem hpre,
      List.count_eq_zero_of_not_mem hpost]

theorem quiet_sleep (p : P) (w : W) (lk : L) : Quiet (sleep p w lk : List (Instr P L W A)) := by
  unfold Quiet sleep
  simp [Instr.Quiet]

theorem sret_not_mem_scheduler (procs : List P) :
    .sret ∉ (scheduler procs : List (Instr P L W A)) := by
  simp [scheduler]

/-! ## The invariant -/

/-- The thread on a CPU: while an interrupt is still to return, interrupts are off and stay off. -/
structure FlatCpu (s : State P L W A C σ) (c : C) : Prop where
  nested : Nested (s.code c)
  masked : .sret ∈ s.code c → (s.cpu c).sie = false ∧
    (∀ p k, (s.cpu c).cur = some p → s.code c = .restoreIntena :: k → (s.proc p).intena = false) ∧
    (0 < (s.cpu c).noff → (∀ k, s.code c ≠ .restoreIntena :: k) → (s.cpu c).intena = false)
  home : ∀ p, (s.cpu c).cur = some p → .sret ∉ (s.cpu c).code

/-- **The invariant**, also of the threads that wait for a CPU. -/
structure Flat (s : State P L W A C σ) : Prop where
  cpu : ∀ c, FlatCpu s c
  resting : ∀ p, (∀ c, (s.cpu c).cur ≠ some p) → (s.proc p).state = .sleeping ∨
    (s.proc p).state = .runnable → Nested (s.proc p).code ∧ (.sret ∈ (s.proc p).code →
      (s.proc p).intena = false ∧ ∃ k, (s.proc p).code = .restoreIntena :: k)

/-- A CPU for which nothing changes. -/
theorem FlatCpu.frame (h : FlatCpu s c) (hcpu : s'.cpu c = s.cpu c)
    (hproc : ∀ p, (s.cpu c).cur = some p →
      (s'.proc p).code = (s.proc p).code ∧ (s'.proc p).intena = (s.proc p).intena) :
      FlatCpu s' c := by
  have hcode : s'.code c = s.code c := code_congr hcpu fun p hp => (hproc p hp).1
  obtain ⟨hnested, hmasked, hhome⟩ := h
  refine ⟨?_, ?_, ?_⟩
  · rw [hcode]
    exact hnested
  · rw [hcode, hcpu]
    intro hsret
    obtain ⟨hsie, hsaved, hmask⟩ := hmasked hsret
    refine ⟨hsie, fun p k hp hk => ?_, hmask⟩
    rw [(hproc p hp).2]
    exact hsaved p k hp hk
  · rw [hcpu]
    exact hhome

/-- What one thread does keeps the invariant, when its own part of it is kept. -/
theorem Flat.local (h : Flat s) (hinv : Inv K rank s) (hl : Local c s s')
    (hnested : Nested (s'.code c)) (hmasked : .sret ∈ s'.code c → (s'.cpu c).sie = false ∧
      (∀ p k, (s'.cpu c).cur = some p → s'.code c = .restoreIntena :: k →
       (s'.proc p).intena = false) ∧
      (0 < (s'.cpu c).noff → (∀ k, s'.code c ≠ .restoreIntena :: k) → (s'.cpu c).intena = false)) :
      Flat s' := by
  have hcur : ∀ c', (s'.cpu c').cur = (s.cpu c').cur := by
    intro c'
    by_cases hc' : c' = c
    · rw [hc', hl.cur]
    · rw [hl.cpu c' hc']
  refine ⟨fun c' => ?_, fun p hp hst => ?_⟩
  · by_cases hc' : c' = c
    · subst hc'
      refine ⟨hnested, hmasked, fun p hp => ?_⟩
      rw [hl.cur] at hp
      rw [(hl.home p hp).2]
      exact (h.cpu c').home p hp
    · apply (h.cpu c').frame (hl.cpu c' hc')
      intro p hp
      rw [hl.proc p fun hc => hc' (hinv.once c' c p hp hc)]
      exact ⟨rfl, rfl⟩
  · have hp' : ∀ c', (s.cpu c').cur ≠ some p := fun c' => hcur c' ▸ hp c'
    rw [hl.proc p (hp' c)] at hst ⊢
    exact h.resting p hp' hst

/-- A process changes in no way that the invariant is about. -/
theorem Flat.setProc (h : Flat s) {pr : Proc P L W A} (hcode : pr.code = (s.proc p).code)
    (hintena : pr.intena = (s.proc p).intena)
    (hstate : pr.state = (s.proc p).state ∨ (s.proc p).state = .sleeping) :
    Flat (s.setProc p pr) := by
  have hsame : ∀ q, ((s.setProc p pr).proc q).code = (s.proc q).code ∧
      ((s.setProc p pr).proc q).intena = (s.proc q).intena := by
    intro q
    by_cases hq : q = p
    · rw [hq, State.proc_setProc]
      exact ⟨hcode, hintena⟩
    · rw [State.proc_setProc_of_ne hq]
      exact ⟨rfl, rfl⟩
  refine ⟨fun c => (h.cpu c).frame rfl fun q _ => hsame q, fun q hq hst => ?_⟩
  · rw [(hsame q).1, (hsame q).2]
    apply h.resting q hq
    by_cases hqp : q = p
    · subst hqp
      rw [State.proc_setProc] at hst
      rcases hstate with heq | hsleep
      · rw [heq] at hst
        exact hst
      · exact Or.inl hsleep
    · rw [State.proc_setProc_of_ne hqp] at hst
      exact hst

/-- A process that rests changes. -/
theorem Flat.setResting (h : Flat s) {pr : Proc P L W A} (hrest : ∀ c, (s.cpu c).cur ≠ some p)
    (hpr : pr.state = .sleeping ∨ pr.state = .runnable → .sret ∉ pr.code) :
    Flat (s.setProc p pr) := by
  refine ⟨fun c => (h.cpu c).frame rfl fun q hq => ?_, fun q hq hst => ?_⟩
  · have hqp : q ≠ p := by
      rintro rfl
      exact hrest c hq
    rw [State.proc_setProc_of_ne hqp]
    exact ⟨rfl, rfl⟩
  · by_cases hqp : q = p
    · subst hqp
      rw [State.proc_setProc] at hst ⊢
      exact ⟨Or.inl (hpr hst), fun hc => absurd hc (hpr hst)⟩
    · rw [State.proc_setProc_of_ne hqp] at hst ⊢
      exact h.resting q hq hst

theorem Flat.begin (h : Flat s) (hrest : ∀ c, (s.cpu c).cur ≠ some p) : Flat (s.begin p) :=
  h.setResting hrest fun _ => by simp [forkret]

theorem Flat.freeproc (h : Flat s) (hrest : ∀ c, (s.cpu c).cur ≠ some p) : Flat (s.freeproc p) := by
  apply h.setResting hrest
  rintro (hc | hc) <;> cases hc

/-- A thread goes on in a state that it has changed. -/
theorem Flat.next (h : Flat s) (hinv : Inv K rank s) (hl : Local c s s') (hnested : Nested k)
    (hstatic : ∀ j, k ≠ .restoreIntena :: j)
    (hmasked : .sret ∈ k → (s'.cpu c).sie = false ∧
      (0 < (s'.cpu c).noff → (s'.cpu c).intena = false)) :
    Flat (s'.setCode c k) := by
  apply h.local hinv (hl.trans (Local.setCode c s' k))
  · rw [State.code_setCode]
    exact hnested
  · rw [State.code_setCode]
    intro hsret
    rw [State.sie_setCode, State.noff_setCode, State.cintena_setCode]
    exact ⟨(hmasked hsret).1, fun p j _ hj => absurd hj (hstatic j),
      fun hpos _ => (hmasked hsret).2 hpos⟩

/-! ## Instructions -/

section

variable {me : Option P} {st : ProcState} {held : List (Lock P L)}

/-- Code that is checked is written without the rest of `sched`. -/
theorem Checked.static (h : Checked K rank me st held (i :: k)) (hi : i ≠ .sched) :
    ∀ j, k ≠ .restoreIntena :: j := by
  rintro j rfl
  cases i
  case acquire => exact h.2.2
  case spin => exact h
  case release => exact h.2.2
  case act => exact h.2.2
  case await => exact h.2.2.2
  case test => exact h.2.2.2
  case setSleeping => exact h.2.2
  case setRunnable => exact h.2.2
  case setZombie => exact h.2.2
  case sched => exact hi rfl
  case restoreIntena => exact h
  case clearChan => exact h.2.2
  case wake => exact h.2.2.2
  case kill => exact h.2.2
  case start => exact h.2.2
  case free => exact h.2.2
  case dispatch => exact h.2.2.2
  case clearProc => exact h.2.2.2
  case intrOn => exact h.2.2
  case intrOff => exact h.2.2
  case sret => exact h.2.2
  case userret => exact h.2.2.2
  case zombieExit => exact h

/-- The flags of a CPU in front of the `sret`. -/
theorem Flat.flags (h : Flat s) (hcode : s.code c = i :: k) (hi : i ≠ .restoreIntena)
    (hsret : .sret ∈ k) :
    (s.cpu c).sie = false ∧ (0 < (s.cpu c).noff → (s.cpu c).intena = false) := by
  have hin : .sret ∈ s.code c := by
    rw [hcode]
    exact List.mem_cons_of_mem _ hsret
  obtain ⟨hsie, -, hintena⟩ := (h.cpu c).masked hin
  refine ⟨hsie, fun hpos => hintena hpos ?_⟩
  rw [hcode]
  rintro j hj
  cases hj
  exact hi rfl

/-- An instruction that changes nothing that the invariant is about. -/
theorem Flat.plain (h : Flat s) (hinv : Inv K rank s) (hcode : s.code c = i :: k) (hi : i.Static)
    (hsched : i ≠ .sched)
    (hl : Local c s s') (hsie : (s.cpu c).sie = false → (s'.cpu c).sie = false)
    (hnoff : (s'.cpu c).noff = (s.cpu c).noff) (hintena : (s'.cpu c).intena = (s.cpu c).intena) :
    Flat (s'.setCode c k) := by
  obtain ⟨held, -, -, -, hcheck⟩ := hinv.holds hcode hi
  have hnested := (h.cpu c).nested
  rw [hcode] at hnested
  refine h.next hinv hl hnested.tail (hcheck.static hsched) fun hsret => ?_
  have hne : i ≠ .restoreIntena := by
    rintro rfl
    exact hi
  obtain ⟨hoff, hmask⟩ := h.flags hcode hne hsret
  rw [hnoff, hintena]
  exact ⟨hsie hoff, hmask⟩

/-- An instruction behind which no interrupt is to return. -/
theorem Flat.loud (h : Flat s) (hinv : Inv K rank s) (hcode : s.code c = i :: k) (hi : i.Static)
    (hsched : i ≠ .sched) (hl : Local c s s') (hloud : ¬ i.Quiet) : Flat (s'.setCode c k) := by
  obtain ⟨held, -, -, -, hcheck⟩ := hinv.holds hcode hi
  have hnested := (h.cpu c).nested
  rw [hcode] at hnested
  exact h.next hinv hl hnested.tail (hcheck.static hsched) fun hsret =>
    absurd (hnested.head hsret) hloud

/-- A thread changes its process. -/
theorem Flat.own (h : Flat s) (hinv : Inv K rank s) (hcode : s.code c = i :: k) (hi : i.Static)
    (hsched : i ≠ .sched) (hcur : (s.cpu c).cur = some p) {pr : Proc P L W A} (hpr : pr.code = k) :
    Flat (s.setProc p pr) := by
  obtain ⟨held, -, -, -, hcheck⟩ := hinv.holds hcode hi
  have hnested := (h.cpu c).nested
  rw [hcode] at hnested
  have hcode' : (s.setProc p pr).code c = k := by
    have hcur' : ((s.setProc p pr).cpu c).cur = some p := hcur
    rw [State.code_of_some hcur', State.proc_setProc, hpr]
  have hne : i ≠ .restoreIntena := by
    rintro rfl
    exact hi
  apply h.local hinv (Local.setProc hcur pr)
  · rw [hcode']
    exact hnested.tail
  · rw [hcode']
    intro hsret
    obtain ⟨hsie, hmask⟩ := h.flags hcode hne hsret
    exact ⟨hsie, fun p j _ hj => absurd hj (hcheck.static hsched j), fun hpos _ => hmask hpos⟩

/-- `sched` saves `intena` for its thread. -/
theorem Flat.switch (h : Flat s) (hinv : Inv K rank s) (hcode : s.code c = .sched :: k)
    (hcur : (s.cpu c).cur = some p)
    (hnoff : (s.cpu c).noff = 1) :
    Flat ((s.setProc p { s.proc p with
      intena := (s.cpu c).intena
      code := .restoreIntena :: k }).setCpu c { s.cpu c with cur := none }) := by
  have hnested := (h.cpu c).nested
  rw [hcode] at hnested
  refine ⟨fun c' => ?_, fun q hq hst => ?_⟩
  · by_cases hc' : c' = c
    · subst hc'
      have hcur' : (((s.setProc p { s.proc p with
          intena := (s.cpu c').intena
          code := .restoreIntena :: k }).setCpu c' { s.cpu c' with cur := none }).cpu c').cur =
          none := by
        rw [State.cpu_setCpu]
      have hno : .sret ∉ (s.cpu c').code := (h.cpu c').home p hcur
      refine ⟨?_, fun hsret => ?_, fun q hq => ?_⟩
      · rw [State.code_of_none hcur', State.cpu_setCpu]
        exact Or.inl hno
      · rw [State.code_of_none hcur', State.cpu_setCpu] at hsret
        exact absurd hsret hno
      · rw [hcur'] at hq
        cases hq
    · refine (h.cpu c').frame (State.cpu_setCpu_of_ne (s := s.setProc p _) hc') fun q hq => ?_
      have hqp : q ≠ p := by
        rintro rfl
        exact hc' (hinv.once c' c q hq hcur)
      rw [State.proc_setCpu, State.proc_setProc_of_ne hqp]
      exact ⟨rfl, rfl⟩
  · rw [State.proc_setCpu] at hst ⊢
    by_cases hqp : q = p
    · subst hqp
      rw [State.proc_setProc]
      refine ⟨Nested.append (k := [.restoreIntena]) (by simp [Quiet, Instr.Quiet]) hnested.tail,
        fun hsret => ⟨?_, k, rfl⟩⟩
      have hin : .sret ∈ k := (List.mem_cons.mp hsret).resolve_left nofun
      exact (h.flags hcode nofun hin).2 (by rw [hnoff]; exact Nat.one_pos)
    · rw [State.proc_setProc_of_ne hqp] at hst ⊢
      apply h.resting q _ hst
      intro c' hc'
      by_cases hcc : c' = c
      · rw [hcc, hcur] at hc'
        exact hqp (Option.some.inj hc').symm
      · exact hq c' (by rw [State.cpu_setCpu_of_ne hcc]; exact hc')

/-- A scheduler runs a thread that goes on where it was. -/
theorem Flat.dispatch (h : Flat s) (hinv : Inv K rank s) (hcode : s.code c = .dispatch p :: k)
    (hcur : (s.cpu c).cur = none) (hlock : s.lock (.proc p) = some c) (hnoff : (s.cpu c).noff = 1)
    (hst : (s.proc p).state = .runnable) :
    Flat ((s.setProc p { s.proc p with state := .running }).setCpu c
      { s.cpu c with proc := some p, cur := some p, code := .clearProc :: k }) := by
  have hrest : ∀ c', (s.cpu c').cur ≠ some p := by
    refine hinv.resting_of_held hlock ?_ (by rw [hcur]; exact nofun)
    rw [hst]
    exact ProcState.noConfusion
  obtain ⟨hnested, hsaved⟩ := h.resting p hrest (Or.inr hst)
  have hsie := (hinv.cpu c).off (by rw [hnoff]; exact Nat.one_pos)
  refine ⟨fun c' => ?_, fun q hq hst' => ?_⟩
  · by_cases hc' : c' = c
    · subst hc'
      have hcode' : ((s.setProc p { s.proc p with state := .running }).setCpu c'
          { s.cpu c' with proc := some p, cur := some p, code := .clearProc :: k }).code c' =
          (s.proc p).code := by
        rw [State.code_of_some (p := p) (by rw [State.cpu_setCpu]), State.proc_setCpu,
          State.proc_setProc]
      refine ⟨?_, fun hsret => ?_, fun q _ => ?_⟩
      · rw [hcode']
        exact hnested
      · rw [hcode'] at hsret ⊢
        obtain ⟨hintena, j, hj⟩ := hsaved hsret
        rw [State.cpu_setCpu]
        refine ⟨hsie, fun q _ hq _ => ?_, fun _ hne => absurd hj (hne j)⟩
        obtain rfl := Option.some.inj hq
        rw [State.proc_setCpu, State.proc_setProc]
        exact hintena
      · rw [State.cpu_setCpu]
        -- a handler runs no process
        have hcpu := (h.cpu c').nested
        rw [hcode] at hcpu
        intro hsret
        exact hcpu.head ((List.mem_cons.mp hsret).resolve_left nofun)
    · refine (h.cpu c').frame (State.cpu_setCpu_of_ne (s := s.setProc p _) hc') fun q hq => ?_
      have hqp : q ≠ p := by
        rintro rfl
        exact hrest c' hq
      rw [State.proc_setCpu, State.proc_setProc_of_ne hqp]
      exact ⟨rfl, rfl⟩
  · have hqp : q ≠ p := by
      rintro rfl
      exact hq c (by rw [State.cpu_setCpu])
    rw [State.proc_setCpu, State.proc_setProc_of_ne hqp] at hst' ⊢
    apply h.resting q _ hst'
    intro c' hc'
    by_cases hcc : c' = c
    · rw [hcc, hcur] at hc'
      cases hc'
    · exact hq c' (by rw [State.cpu_setCpu_of_ne hcc]; exact hc')

/-- The flags behind `push_off`. -/
theorem Flat.acquire (h : Flat s) (hinv : Inv K rank s) (hcode : s.code c = .acquire l :: k) :
    Flat ((s.pushOff c).setCode c (.spin l :: k)) := by
  have hnested := (h.cpu c).nested
  rw [hcode] at hnested
  refine h.next hinv (Local.pushOff c s) (Nested.append (k := [.spin l])
    (by simp [Quiet, Instr.Quiet]) hnested.tail) nofun fun hsret => ?_
  obtain ⟨hsie, hmask⟩ := h.flags hcode nofun ((List.mem_cons.mp hsret).resolve_left nofun)
  rw [State.pushOff, State.cpu_setCpu]
  refine ⟨rfl, fun _ => ?_⟩
  by_cases hzero : (s.cpu c).noff = 0
  · exact (if_pos hzero).trans hsie
  · exact (if_neg hzero).trans (hmask (Nat.pos_of_ne_zero hzero))

/-- The flags behind `pop_off`. -/
theorem Flat.release (h : Flat s) (hinv : Inv K rank s) (hcode : s.code c = .release l :: k)
    (hlock : s.lock l = some c) (hpos : 0 < (s.cpu c).noff) :
    Flat (((s.setLock l none).setCpu c { s.cpu c with
      noff := (s.cpu c).noff - 1
      sie := (s.cpu c).sie || ((s.cpu c).noff - 1 == 0 && (s.cpu c).intena) }).setCode c k) := by
  obtain ⟨held, -, -, -, hcheck⟩ := hinv.holds hcode trivial
  have hnested := (h.cpu c).nested
  rw [hcode] at hnested
  refine h.next hinv (Local.release hlock rfl ⟨rfl, rfl⟩) hnested.tail (hcheck.static nofun)
    fun hsret => ?_
  obtain ⟨hsie, hmask⟩ := h.flags hcode nofun hsret
  rw [State.cpu_setCpu]
  refine ⟨?_, fun _ => hmask hpos⟩
  rw [hmask hpos, Bool.and_false, Bool.or_false]
  exact hsie

/-- The rest of `sched`. -/
theorem Flat.restoreIntena (h : Flat s) (hinv : Inv K rank s)
    (hcode : s.code c = .restoreIntena :: k) (hcur : (s.cpu c).cur = some p) :
    Flat ((s.setCpu c { s.cpu c with intena := (s.proc p).intena }).setCode c k) := by
  obtain ⟨held, -, -, -, hnow⟩ := (hinv.cpu c).thread
  rw [hcode] at hnow
  have hnested := (h.cpu c).nested
  rw [hcode] at hnested
  have hl : Local c s (s.setCpu c { s.cpu c with intena := (s.proc p).intena }) :=
    Local.setCpu rfl fun _ _ => ⟨rfl, rfl⟩
  have hstatic : ∀ j, k ≠ .restoreIntena :: j := by
    rintro j rfl
    exact hnow.2.2
  refine h.next hinv hl hnested.tail hstatic fun hsret => ?_
  obtain ⟨hsie, hsaved, -⟩ := (h.cpu c).masked (by rw [hcode]; exact List.mem_cons_of_mem _ hsret)
  rw [State.cpu_setCpu]
  exact ⟨hsie, fun _ => hsaved p k hcur hcode⟩

/-- A round of the loop around `sleep` begins. -/
theorem Flat.await (h : Flat s) (hinv : Inv K rank s) (hkernel : K.Checked rank)
    (hround : ∀ p w d, Quiet (K.round p w d)) {w : W} (hcode : s.code c = .await w :: k)
    (hcur : (s.cpu c).cur = some p) : Flat (s.setCode c (K.round p w s.data ++ .test w :: k)) := by
  obtain ⟨held, -, -, -, hst, -, rfl, hcheck⟩ := hinv.holds hcode trivial
  have hnested := (h.cpu c).nested
  rw [hcode] at hnested
  refine h.next hinv (Local.refl c s) ?_ ?_ fun hsret => h.flags hcode nofun ?_
  · exact Nested.append (hround p w _) (Nested.append (k := [.test w])
      (by simp [Quiet, Instr.Quiet]) hnested.tail)
  · rw [hst, hcur] at hcheck
    have hnext : Checked K rank (some p) .running [.other (K.guard w)] (K.round p w s.data ++
      .test w :: k) :=
      hkernel.round p w s.data _ ⟨rfl, rfl, rfl, hcheck⟩
    rintro j hj
    rw [hj] at hnext
    exact hnext
  · rcases List.mem_append.mp hsret with hc | hc
    · exact (hround p w _ _ hc).elim
    · exact (List.mem_cons.mp hc).resolve_left nofun

/-- The test of the loop. -/
theorem Flat.test (h : Flat s) (hinv : Inv K rank s) {w : W} (hcode : s.code c = .test w :: k) :
    Flat (s.setCode c (if K.waits w s.data (s.proc p).killed then sleep p w (K.guard w) ++
      .await w :: k else k)) := by
  obtain ⟨held, -, -, -, hcheck⟩ := hinv.holds hcode trivial
  have hnested := (h.cpu c).nested
  rw [hcode] at hnested
  by_cases hcond : K.waits w s.data (s.proc p).killed = true
  · rw [if_pos hcond]
    refine h.next hinv (Local.refl c s) ?_ nofun fun hsret => h.flags hcode nofun ?_
    · exact Nested.append (quiet_sleep p w _) (Nested.append (k := [.await w])
        (by simp [Quiet, Instr.Quiet]) hnested.tail)
    · rcases List.mem_append.mp hsret with hc | hc
      · exact (quiet_sleep p w _ _ hc).elim
      · exact (List.mem_cons.mp hc).resolve_left nofun
  · rw [if_neg hcond]
    exact h.next hinv (Local.refl c s) hnested.tail (hcheck.static nofun) fun hsret =>
      h.flags hcode nofun hsret

/-- **An instruction keeps the invariant.** -/
theorem Effect.flat (heff : Effect K s c k i s') (hinv : Inv K rank s) (hkernel : K.Checked rank)
    (hround : ∀ p w d, Quiet (K.round p w d)) (hcode : s.code c = i :: k) (h : Flat s) :
    Flat s' := by
  -- Most instructions change neither the count of `push_off` nor `intena`; they are `plain`.
  cases heff with
  | acquire => exact h.acquire hinv hcode
  | @taken l free =>
    obtain ⟨held, -, -, -, hnow⟩ := (hinv.cpu c).thread
    have hnested := (h.cpu c).nested
    rw [hcode] at hnow hnested
    -- The count went up with the `acquire`; what is new is the lock itself.
    refine h.next hinv (Local.setLock (Or.inl free) (Or.inr rfl)) hnested.tail ?_ fun hsret =>
      h.flags hcode nofun hsret
    exact Checked.static (i := .acquire l) hnow nofun
  | spins => exact h
  | release mine pos => exact h.release hinv hcode mine pos
  | act => exact h.plain hinv hcode trivial nofun (Local.setData c s _) id rfl rfl
  | await cur => exact h.await hinv hkernel hround hcode cur
  | test cur guard => exact h.test hinv hcode
  | sleeping cur => exact h.own hinv hcode trivial nofun cur rfl
  | setRunnable cur => exact h.own hinv hcode trivial nofun cur rfl
  | setZombie cur => exact h.own hinv hcode trivial nofun cur rfl
  | clearChan cur => exact h.own hinv hcode trivial nofun cur rfl
  | switch cur only noff => exact h.switch hinv hcode cur noff
  | restore cur => exact h.restoreIntena hinv hcode cur
  | @woken q w lock cur asleep =>
    have hrouse : Flat (s.rouse q) := h.setProc rfl rfl (Or.inr asleep)
    exact hrouse.plain (hinv.rouse lock cur asleep) (code_rouse.trans hcode) trivial nofun
      (Local.refl c _) id rfl rfl
  | passed lock awake => exact h.plain hinv hcode trivial nofun (Local.refl c s) id rfl rfl
  | @killed q =>
    have hkilled : Flat (s.setProc q { s.proc q with killed := true }) :=
      h.setProc rfl rfl (Or.inl rfl)
    exact hkilled.plain (hinv.setProc rfl (Or.inl rfl)) (code_setKilled.trans hcode) trivial nofun
      (Local.refl c _) id rfl rfl
  | @roused q lock cur asleep =>
    have hasleep := state_setKilled asleep
    have hkilled : Flat (s.setProc q { s.proc q with killed := true }) :=
      h.setProc rfl rfl (Or.inl rfl)
    have hinv' : Inv K rank (s.setProc q { s.proc q with killed := true }) :=
      hinv.setProc rfl (Or.inl rfl)
    have hrouse : Flat ((s.setProc q { s.proc q with killed := true }).rouse q) :=
      hkilled.setProc rfl rfl (Or.inr hasleep)
    exact hrouse.plain (hinv'.rouse lock cur hasleep)
      (code_rouse.trans (code_setKilled.trans hcode)) trivial nofun (Local.refl c _) id rfl rfl
  | started rest unused =>
    exact (h.begin rest).plain (hinv.begin rest) ((code_setProc_of_resting rest).trans hcode)
      trivial nofun (Local.refl c _) id rfl rfl
  | occupied => exact h.plain hinv hcode trivial nofun (Local.refl c s) id rfl rfl
  | freed rest zombie =>
    exact (h.freeproc rest).plain (hinv.freeproc rest) ((code_setProc_of_resting rest).trans hcode)
      trivial nofun (Local.refl c _) id rfl rfl
  | alive => exact h.plain hinv hcode trivial nofun (Local.refl c s) id rfl rfl
  | dispatch cur only noff runnable =>
    exact h.dispatch hinv hcode cur ((only _).mp rfl) noff runnable
  | skip => exact h.plain hinv hcode trivial nofun (Local.refl c s) id rfl rfl
  | clearProc cur =>
    refine h.plain hinv hcode trivial nofun (Local.setCpu rfl fun p hp => absurd (cur.symm.trans hp)
      nofun) ?_ ?_ ?_
    · rw [State.cpu_setCpu]
      exact id
    · rw [State.cpu_setCpu]
    · rw [State.cpu_setCpu]
  -- Interrupts go on only where the code holds no lock.
  | intrOn => exact h.loud hinv hcode trivial nofun (Local.setCpu rfl fun _ _ => ⟨rfl, rfl⟩) id
  | intrOff =>
    refine h.plain hinv hcode trivial nofun (Local.setCpu rfl fun _ _ => ⟨rfl, rfl⟩) ?_ ?_ ?_
    · rw [State.cpu_setCpu]
      exact fun _ => rfl
    · rw [State.cpu_setCpu]
    · rw [State.cpu_setCpu]
  | sret => exact h.loud hinv hcode trivial nofun (Local.setCpu rfl fun _ _ => ⟨rfl, rfl⟩) id
  | userret free =>
    exact h.next hinv (Local.setCpu rfl fun _ _ => ⟨rfl, rfl⟩) (Or.inl List.not_mem_nil)
      nofun fun hc =>
      absurd hc List.not_mem_nil

end

/-! ## Runs -/

/-- The code of a program leaves interrupts to the kernel: its handlers and the rounds of its loops
are quiet, and only the code of an interrupt returns from one. -/
structure Program.Masked (prog : Program P L W A) (K : Kernel P L W A σ) : Prop where
  round : ∀ p w d, Quiet (K.round p w d)
  handler : ∀ me code, prog.handler me code → Quiet code
  entry : ∀ p code, prog.entry p code → .sret ∉ code

/-- **Every step keeps the invariant.** -/
theorem Flat.step {prog : Program P L W A} (hprog : prog.Checked K rank) (hmasked : prog.Masked K)
    (h : Flat s)
    (hinv : Inv K rank s) {e : Event P L W A C} (hstep : Step K prog s e s') : Flat s' := by
  cases hinv.change hstep with
  | instr code effect => exact effect.flat hinv hprog.kernel hmasked.round code h
  | user => exact h
  | round cur code =>
    have hno := sret_not_mem_scheduler (L := L) (W := W) (A := A) K.procs
    exact h.next hinv (Local.refl _ s) (Or.inl hno) nofun fun hc => absurd hc hno
  | @interrupt c handler henabled hallowed =>
    have hno : .sret ∉ s.code c := by
      intro hc
      rw [((h.cpu c).masked hc).1] at henabled
      cases henabled
    have hquiet := hmasked.handler _ _ hallowed
    have hzero : (s.cpu c).noff = 0 := by
      by_contra hc
      rw [(hinv.cpu c).off (Nat.pos_of_ne_zero hc)] at henabled
      cases henabled
    refine h.next hinv (Local.setCpu rfl fun _ _ => ⟨rfl, rfl⟩)
      (Or.inr ⟨handler, s.code c, rfl, hquiet, hno⟩) ?_ fun _ => ?_
    · intro j hj
      have hhandler := hprog.handler _ _ hallowed
      cases handler with
      | nil => cases hj
      | cons i k =>
        cases hj
        exact hhandler
    · rw [State.cpu_setCpu]
      refine ⟨rfl, fun hpos => ?_⟩
      rw [show _ = 0 from hzero] at hpos
      cases hpos
  | @enter c p code hcur huser hallowed =>
    have hno := hmasked.entry p code hallowed
    refine h.next hinv (Local.setCpu rfl fun _ _ => ⟨rfl, rfl⟩) (Or.inl hno) ?_ fun hc =>
      absurd hc hno
    rintro j rfl
    exact hprog.entry p _ hallowed

theorem Boot.flat (h : Boot s) : Flat s := by
  refine ⟨fun c => ?_, fun p _ hst => ?_⟩
  · obtain ⟨-, hcur, -, hcode⟩ := h.cpu c
    have hnil : s.code c = [] := by rw [State.code_of_none hcur, hcode]
    refine ⟨?_, fun hsret => ?_, fun p hp => ?_⟩
    · rw [hnil]
      exact Or.inl List.not_mem_nil
    · rw [hnil] at hsret
      cases hsret
    · rw [hcur] at hp
      cases hp
  · rcases h.proc p with ⟨hunused, -⟩ | ⟨-, hcode⟩
    · rw [hunused] at hst
      rcases hst with hc | hc <;> cases hc
    · have hno : .sret ∉ (forkret p : List (Instr P L W A)) := by simp [forkret]
      rw [hcode]
      exact ⟨Or.inl hno, fun hc => absurd hc hno⟩

/-- The invariant holds in every state that is reached. -/
theorem flat_of_run {prog : Program P L W A} (hprog : prog.Checked K rank) (hmasked : prog.Masked K)
    {s₀ : State P L W A C σ} {es : List (Event P L W A C)} (hboot : Boot s₀)
    (hrun : Run (Step K prog) s₀ es s) : Flat s :=
  (hrun.invariant (I := fun s => Inv K rank s ∧ Flat s)
    (fun _ _ _ h hstep => ⟨h.1.step hprog hstep, h.2.step hprog hmasked h.1 hstep⟩) ⟨hboot.inv,
      hboot.flat⟩).2

/-- **No thread is interrupted twice**: a CPU on which interrupts are enabled runs a thread that no
interrupt has interrupted, and no thread has more than one interrupt to return from. -/
theorem interrupts_flat [DecidableEq A] {prog : Program P L W A} (hprog : prog.Checked K rank)
    (hmasked : prog.Masked K) {s₀ : State P L W A C σ} {es : List (Event P L W A C)}
    (hboot : Boot s₀) (hrun : Run (Step K prog) s₀ es s) :
    (∀ c, (s.cpu c).sie = true → .sret ∉ s.code c) ∧ (∀ c, (s.code c).count .sret ≤ 1) ∧
      ∀ p, (s.proc p).state = .sleeping ∨ (s.proc p).state = .runnable →
      (∀ c, (s.cpu c).cur ≠ some p) →
        (s.proc p).code.count .sret ≤ 1 := by
  have hflat := flat_of_run hprog hmasked hboot hrun
  refine ⟨fun c hsie hc => ?_, fun c => (hflat.cpu c).nested.count_le, fun p hst hrest =>
    (hflat.resting p hrest hst).1.count_le⟩
  rw [((hflat.cpu c).masked hc).1] at hsie
  cases hsie

/-- System calls that the timer may interrupt. -/
def preemptible : Program (Fin 2) Unit Unit Unit where
  handler me code := code = me.elim [] yield
  entry _ code := code = [.intrOn, .act (), .intrOff, .userret]

instance (me : Option (Fin 2)) (code : List (Instr (Fin 2) Unit Unit Unit)) :
    Decidable (preemptible.handler me code) :=
  inferInstanceAs (Decidable (code = me.elim [] yield))

instance (p : Fin 2) (code : List (Instr (Fin 2) Unit Unit Unit)) :
    Decidable (preemptible.entry p code) :=
  inferInstanceAs (Decidable (code = [.intrOn, .act (), .intrOff, .userret]))

theorem preemptible_checked : preemptible.Checked computing lastRank where
  kernel := computing_checked
  handler me code h := by
    obtain rfl := h
    cases me with
    | none => exact ⟨rfl, rfl⟩
    | some p =>
      have hyield : Checked computing lastRank (some p) .running [] (yield p ++ []) :=
        checked_yield ⟨rfl, rfl⟩
      rwa [List.append_nil] at hyield
  entry p code h := by
    obtain rfl := h
    refine ⟨rfl, rfl, rfl, fun w hw => ?_, rfl, rfl, rfl, rfl, rfl, rfl, rfl⟩
    obtain ⟨me, d, hcond, -⟩ := hw
    cases hcond

theorem preemptible_masked : preemptible.Masked computing where
  round _ _ _ _ hi := absurd hi List.not_mem_nil
  handler me code h := by
    obtain rfl := h
    cases me with
    | none => exact fun _ hi => absurd hi List.not_mem_nil
    | some p => simp [Quiet, yield, Instr.Quiet]
  entry p code h := by
    obtain rfl := h
    simp

/-- The timer interrupts a system call on the first CPU, which yields. -/
def interruptCall : List (Event (Fin 2) Unit Unit Unit (Fin 2)) :=
  [List.replicate 9 (.run 0),
    [.enter 0 [.intrOn, .act (), .intrOff, .userret], .run 0, .interrupt 0 (yield 0)],
    List.replicate 5 (.run 0)].flatten

set_option maxRecDepth 100000 in
/-- The process waits for a CPU with an interrupt to return from. -/
theorem interrupts_flat_yielded : ∃ s, Run (Step computing preemptible) bootOne interruptCall s ∧
    (s.cpu 0).cur = none ∧ (s.proc 0).code.count .sret = 1 ∧ ∀ c, (s.code c).count .sret ≤ 1 := by
  have hsome : ((Run.after (State.next computing preemptible) interruptCall bootOne).map
      fun s => decide ((s.cpu 0).cur = none ∧ (s.proc 0).code.count .sret = 1)) = some true := by
    decide +kernel
  obtain ⟨s, hs, htest⟩ := Option.map_eq_some_iff.mp hsome
  have hrun : Run.Meets (Step computing preemptible) (fun _ _ => True) bootOne ([] ++
    interruptCall) s :=
    Run.meets_of_after (fun s e s' h =>
      ⟨trivial, (step_of_next computing h : Step computing preemptible s e s')⟩)
      interruptCall (.nil bootOne) hs
  obtain ⟨hcur, hcount⟩ := of_decide_eq_true htest
  exact ⟨s, hrun.run, hcur, hcount,
    (interrupts_flat preemptible_checked preemptible_masked boot_bootOne hrun.run).2.1⟩

end Xv6.Sched
