import OsnMp2.Bakery.Counters

/-!
# The simulation does not hang

The last customer tells the chefs to stop by a broadcast on `work_available`, on which nobody waits:
a chef that waits, waits for the next tick. The timer tests `customers_finished` in the same
critical section in which it ticks, so it does not return before the tick that wakes the chefs up
for the last time; after that tick no chef has a reason to wait again.

## Main definitions

* `WaitInv`: who waits, and what holds when the timer has not started or has returned
* `State.Finished`, `IsThread`: the threads of a run, and when one has finished

## Main results

* `Step.waits`: what a step does to the threads that wait
* `WaitInv.step`: every step keeps the invariant
* `never_hangs`: some thread can take a step as long as one has not finished
-/

namespace Bakery

variable {input : List CustomerInput} {fits : Thread → Int32 → Prop} {s s' : State} {c n : Nat}
  {j : Fin maxChefs} {t u : Thread}

/-! ## Waiting and waking up -/

theorem waits_broadcast (s : State) (cond : Cond) (t : Thread) :
    (s.broadcast cond).waits t = s.waits t ∨ (s.broadcast cond).waits t = none := by
  simp only [State.broadcast]
  split
  · exact Or.inr rfl
  · exact Or.inl rfl

/-- Nobody waits on a condition that was signalled. -/
theorem waits_broadcast_ne (s : State) (cond : Cond) (t : Thread) :
    (s.broadcast cond).waits t ≠ some cond := by
  simp only [State.broadcast]
  split
  · rintro ⟨⟩
  · assumption

theorem waits_waitWhile (s : State) (u : Thread) (cond : Cond) (again : Bool) (t : Thread) :
    (s.waitWhile u cond again).waits t = s.waits t ∨ (s.waitWhile u cond again).waits t = none ∨
    t = u ∧ again = true ∧ (s.waitWhile u cond again).waits t = some cond := by
  simp only [State.waitWhile]
  by_cases ht : t = u
  · rw [ht, Function.update_self]
    cases again
    · exact Or.inr (Or.inl rfl)
    · exact Or.inr (Or.inr ⟨rfl, rfl, rfl⟩)
  · exact Or.inl (Function.update_of_ne ht ..)

theorem waits_seatNext (s : State) (t : Thread) :
    (seatNext s).waits t = s.waits t ∨ (seatNext s).waits t = none := by
  unfold seatNext
  split
  · exact waits_broadcast _ _ t
  · exact Or.inl rfl

theorem waits_endIfLast (n : Nat) (s : State) (t : Thread) :
    (endIfLast n s).waits t = s.waits t ∨ (endIfLast n s).waits t = none := by
  unfold endIfLast
  split
  · exact waits_broadcast _ _ t
  · exact Or.inl rfl

/-- A customer that leaves wakes threads up, and blocks nobody. -/
theorem waits_leave (n : Nat) (s : State) (c : Nat) (t : Thread) :
    (leave n s c).waits t = s.waits t ∨ (leave n s c).waits t = none := by
  rcases waits_endIfLast n (seatNext (goOut s c)) t with h | h
  · rcases waits_seatNext (goOut s c) t with h' | h'
    · exact Or.inl (h.trans h')
    · exact Or.inr (h.trans h')
  · exact Or.inr h

/-- The conditions on which the thread may block, after its step from `s` to `s'`. -/
def Blocks (input : List CustomerInput) (s s' : State) : Thread → Prop
  | .timer | .main => False
  | .chef j => s'.waits (.chef j) = some .timeTick ∧
      ((s'.chef j).busy = true ∨ s.simulationDone = false)
  | .customer c => c < input.length ∧ s'.waits (.customer c) ≠ some .workAvailable ∧
      s'.customer c ≠ .returned

theorem customerStep_waits (hstep : customerStep input c s = some s') (t : Thread) :
    s'.waits t = s.waits t ∨ s'.waits t = none ∨ t = .customer c ∧
    Blocks input s s' (.customer c) := by
  -- the customer waits in a loop, with its control point at that loop
  have hwait : ∀ {s₁ : State} {cond : Cond} {again : Bool}, c < input.length →
      s₁.waits t = s.waits t → s₁.customer c ≠ .returned → cond ≠ .workAvailable →
      (s₁.waitWhile (.customer c) cond again).waits t = s.waits t ∨
      (s₁.waitWhile (.customer c) cond again).waits t = none ∨
      t = .customer c ∧ Blocks input s (s₁.waitWhile (.customer c) cond again) (.customer c) := by
    intro s₁ cond again known heq hpc hcond
    rcases waits_waitWhile s₁ (.customer c) cond again t with h | h | ⟨h, -, hw⟩
    · exact Or.inl (h.trans heq)
    · exact Or.inr (Or.inl h)
    · rw [h] at hw
      refine Or.inr (Or.inr ⟨h, known, ?_, hpc⟩)
      rw [hw]
      exact fun he => hcond (Option.some.inj he)
  unfold customerStep at hstep
  cases hci : input[c]? with
  | none => rw [hci] at hstep; cases hstep
  | some ci =>
    have known : c < input.length := (List.getElem?_eq_some_iff.mp hci).1
    rw [hci] at hstep
    dsimp only at hstep
    cases hpc : s.customer c with
    | returned => rw [hpc] at hstep; cases hstep
    | arriving =>
      rw [hpc] at hstep
      dsimp only at hstep
      split at hstep
      · cases hstep
        exact hwait known rfl (by rw [hpc]; rintro ⟨⟩) (by rintro ⟨⟩)
      · cases hstep
        unfold enter
        split
        · exact Or.inl rfl
        · exact hwait known rfl (by simp [State.setCustomer]) (by rintro ⟨⟩)
    | entering enterDone =>
      rw [hpc] at hstep
      dsimp only at hstep
      split at hstep
      · cases hstep
        exact hwait known rfl (by rw [hpc]; rintro ⟨⟩) (by rintro ⟨⟩)
      · cases hstep
        unfold trySit
        split <;> exact hwait known rfl (by simp [State.setCustomer]) (by rintro ⟨⟩)
    | standing =>
      rw [hpc] at hstep
      dsimp only at hstep
      split at hstep
      · cases hstep
        exact hwait known rfl (by rw [hpc]; rintro ⟨⟩) (by rintro ⟨⟩)
      · cases hstep
        exact hwait known rfl (by simp [State.setCustomer]) (by rintro ⟨⟩)
    | sitting sitDone =>
      rw [hpc] at hstep
      dsimp only at hstep
      split at hstep
      · cases hstep
        exact hwait known rfl (by rw [hpc]; rintro ⟨⟩) (by rintro ⟨⟩)
      · cases hstep
        exact hwait known rfl (by simp [State.setCustomer]) (by rintro ⟨⟩)
    | waitingCake =>
      rw [hpc] at hstep
      dsimp only at hstep
      split at hstep
      · cases hstep
        exact hwait known rfl (by rw [hpc]; rintro ⟨⟩) (by rintro ⟨⟩)
      · cases hstep
        exact hwait known rfl (by simp [State.setCustomer]) (by rintro ⟨⟩)
    | waitingDone =>
      rw [hpc] at hstep
      dsimp only at hstep
      split at hstep
      · cases hstep
        exact hwait known rfl (by rw [hpc]; rintro ⟨⟩) (by rintro ⟨⟩)
      · cases hstep
        rcases waits_leave input.length s c t with h | h
        · exact Or.inl h
        · exact Or.inr (Or.inl h)

theorem chefStep_waits (hstep : chefStep input.length j s = some s') (t : Thread) :
    s'.waits t = s.waits t ∨ s'.waits t = none ∨ t = .chef j ∧ Blocks input s s' (.chef j) := by
  -- A chef waits for the tick when busy, or when it found nothing to do and the bakery is not
  -- closing.
  have hwait : ∀ {s₁ : State} {again : Bool}, s₁.waits t = s.waits t →
      ((s₁.chef j).busy = true ∨ s.simulationDone = false) →
      (s₁.waitWhile (.chef j) .timeTick again).waits t = s.waits t ∨
      (s₁.waitWhile (.chef j) .timeTick again).waits t = none ∨
      t = .chef j ∧ Blocks input s (s₁.waitWhile (.chef j) .timeTick again) (.chef j) := by
    intro s₁ again heq hwhy
    rcases waits_waitWhile s₁ (.chef j) .timeTick again t with h | h | ⟨h, -, hw⟩
    · exact Or.inl (h.trans heq)
    · exact Or.inr (Or.inl h)
    · rw [h] at hw
      exact Or.inr (Or.inr ⟨h, hw, hwhy⟩)
  -- A chef who has finished wakes the others and waits for nothing.
  have hdone : ∀ {s₁ : State} {pc : ChefPc}, s₁.waits t = s.waits t →
      ((s₁.broadcast .timeTick).setChef j pc).waits t = s.waits t ∨
      ((s₁.broadcast .timeTick).setChef j pc).waits t = none ∨
      t = .chef j ∧ Blocks input s ((s₁.broadcast .timeTick).setChef j pc) (.chef j) := by
    intro s₁ pc heq
    rcases waits_broadcast s₁ .timeTick t with h | h
    · exact Or.inl (h.trans heq)
    · exact Or.inr (Or.inl h)
  unfold chefStep at hstep
  cases hpc : s.chef j with
  | returned => rw [hpc] at hstep; cases hstep
  | start =>
    rw [hpc] at hstep
    cases hstep
    exact Or.inl rfl
  | looking last =>
    rw [hpc] at hstep
    dsimp only at hstep
    split at hstep
    · next hagain =>
      cases hstep
      exact hwait rfl (Or.inr hagain.2)
    split at hstep
    · cases hstep
      exact Or.inl rfl
    split at hstep
    · cases hstep
      exact hwait rfl (Or.inl (by simp [State.setChef, ChefPc.busy]))
    · cases hstep
      unfold lookForRequest
      split
      · exact Or.inl rfl
      · dsimp only
        split
        · exact hwait rfl (Or.inl (by simp [State.setChef, ChefPc.busy]))
        · exact Or.inl rfl
  | accepting idx doneTime last =>
    rw [hpc] at hstep
    dsimp only at hstep
    split at hstep
    · cases hstep
      exact hwait rfl (Or.inl (by rw [hpc]; rfl))
    · cases hstep
      exact hdone rfl
  | baking idx bakeDone last =>
    rw [hpc] at hstep
    dsimp only at hstep
    split at hstep
    · cases hstep
      exact hwait rfl (Or.inl (by rw [hpc]; rfl))
    · cases hstep
      exact hdone rfl

/-- **What a step does to the threads that wait**: it wakes some of them up, and its own thread may
block. -/
theorem Step.waits {e : Event} (hstep : Step input s e s') (t : Thread) :
    s'.waits t = s.waits t ∨ s'.waits t = none ∨ e = .run t ∧ Blocks input s s' t := by
  cases hstep with
  | wake blocked =>
    rename_i u cond
    by_cases ht : t = u
    · rw [ht]
      exact Or.inr (Or.inl (Function.update_self ..))
    · exact Or.inl (Function.update_of_ne ht ..)
  | run ready step =>
    rename_i u
    cases u with
    | customer c =>
      rcases customerStep_waits step t with h | h | ⟨rfl, h⟩
      · exact Or.inl h
      · exact Or.inr (Or.inl h)
      · exact Or.inr (Or.inr ⟨rfl, h⟩)
    | chef j =>
      rcases chefStep_waits step t with h | h | ⟨rfl, h⟩
      · exact Or.inl h
      · exact Or.inr (Or.inl h)
      · exact Or.inr (Or.inr ⟨rfl, h⟩)
    | timer =>
      change timerStep input.length s = some s' at step
      unfold timerStep at step
      split at step
      · cases step
        exact Or.inl rfl
      · cases step
        rcases waits_broadcast (({ s with currentTime := s.currentTime + 1 } : State).broadcast
          .timeTick) .workAvailable t with h | h
        · rcases waits_broadcast { s with currentTime := s.currentTime + 1 } .timeTick
            t with h' | h'
          · exact Or.inl (h.trans h')
          · exact Or.inr (Or.inl (h.trans h'))
        · exact Or.inr (Or.inl h)
      · cases step
    | main =>
      change mainStep input.length s = some s' at step
      unfold mainStep at step
      split at step
      · split at step
        · cases step
          rcases waits_broadcast { s with simulationDone := true } .workAvailable t with h | h
          · exact Or.inl h
          · exact Or.inr (Or.inl h)
        · cases step
      · split at step
        · cases step
          exact Or.inl rfl
        · cases step
      · cases step

/-! ## What the other threads leave as it is -/

theorem leave_frame (n : Nat) (s : State) (c : Nat) :
    (leave n s c).timer = s.timer ∧ (leave n s c).currentTime = s.currentTime ∧
    (leave n s c).customer = Function.update s.customer c .returned := by
  unfold leave endIfLast seatNext
  split <;> split <;> exact ⟨rfl, rfl, rfl⟩

/-- A customer moves itself alone, and leaves the clock to the timer. -/
theorem CustomerMove.frame (hm : CustomerMove n c s s') : s'.timer = s.timer ∧
    s'.currentTime = s.currentTime ∧ ∀ d, d ≠ c → s'.customer d = s.customer d := by
  cases hm with
  | idle => exact ⟨rfl, rfl, fun _ _ => rfl⟩
  | sitDown | request | pay => exact ⟨rfl, rfl, fun d hd => Function.update_of_ne hd ..⟩
  | enter =>
    unfold Bakery.enter
    split <;> exact ⟨rfl, rfl, fun d hd => Function.update_of_ne hd ..⟩
  | trySit =>
    unfold Bakery.trySit
    split <;> exact ⟨rfl, rfl, fun d hd => Function.update_of_ne hd ..⟩
  | leave =>
    obtain ⟨htimer, htime, hcust⟩ := leave_frame n s c
    refine ⟨htimer, htime, fun d hd => ?_⟩
    rw [hcust, Function.update_of_ne hd]

theorem ChefMove.frame (hm : ChefMove j s s') :
    s'.timer = s.timer ∧ s'.currentTime = s.currentTime ∧ s'.customer = s.customer := by
  cases hm <;> exact ⟨rfl, rfl, rfl⟩

/-- **Only the timer moves the clock**, and a customer is moved by its own steps alone. -/
theorem Inv.frame {e : Event} (h : Inv s) (hstep : Step input s e s') :
    (e ≠ .run .timer → s'.timer = s.timer ∧ s'.currentTime = s.currentTime) ∧
    ∀ c, e ≠ .run (.customer c) → s'.customer c = s.customer c := by
  cases hstep with
  | wake blocked => exact ⟨fun _ => ⟨rfl, rfl⟩, fun _ _ => rfl⟩
  | run ready step =>
    rename_i u
    cases u with
    | customer d =>
      obtain ⟨htimer, htime, hcust⟩ := (customerStep_cases step).frame
      refine ⟨fun _ => ⟨htimer, htime⟩, fun c hc => hcust c ?_⟩
      rintro rfl
      exact hc rfl
    | chef j =>
      obtain ⟨htimer, htime, hcust⟩ := (h.chefs.chefMove step).frame
      exact ⟨fun _ => ⟨htimer, htime⟩, fun c _ => congrFun hcust c⟩
    | timer =>
      refine ⟨fun hne => absurd rfl hne, fun c _ => ?_⟩
      change timerStep input.length s = some s' at step
      unfold timerStep at step
      split at step <;> cases step <;> rfl
    | main =>
      change mainStep input.length s = some s' at step
      unfold mainStep at step
      split at step
      · split at step <;> cases step
        exact ⟨fun _ => ⟨rfl, rfl⟩, fun _ _ => rfl⟩
      · split at step <;> cases step
        exact ⟨fun _ => ⟨rfl, rfl⟩, fun _ _ => rfl⟩
      · cases step

/-! ## The invariant of the waits -/

/-- Nobody bakes for the customer, and no time has passed since its request. -/
def State.Unserved (s : State) (c : Nat) : Prop :=
  s.baking c = false ∧ (s.requested c = true → s.requestTime c = s.currentTime)

/-- **Who waits**, and what holds before the timer has started and after it has returned. -/
structure WaitInv (n : Nat) (s : State) : Prop where
  nobody : ∀ t, s.waits t ≠ some .workAvailable
  timer : s.waits .timer = none
  main : s.waits .main = none
  chef : ∀ j cond, s.waits (.chef j) = some cond → cond = .timeTick
  gone : ∀ c, s.customer c = .returned → s.waits (.customer c) = none
  known : ∀ c, n ≤ c → s.waits (.customer c) = none
  finished : (n : Int) ≤ s.customersFinished → s.simulationDone = true
  start : s.timer = .start → ∀ c, s.Unserved c
  stopped : s.timer = .returned → (n : Int) ≤ s.customersFinished ∧ ∀ t, s.waits t = none

theorem BakeryInv.allGone (h : BakeryInv input s)
    (hover : (input.length : Int) ≤ s.customersFinished)
    (hc : c < input.length) : s.customer c = .returned := by
  have hle : ((Finset.range input.length).card : Int) ≤ tally (Finset.range input.length)
    s.isGone := by
    rw [← h.count.finished, Finset.card_range]
    exact hover
  simpa [State.isGone] using all_of_card_le_tally hle (Finset.mem_range.mpr hc)

/-- Once all customers are gone no chef is inside a bake or a payment. -/
theorem BakeryInv.idle (h : BakeryInv input s) (hover : (input.length : Int) ≤ s.customersFinished)
    (j : Fin maxChefs) : (s.chef j).busy = false := by
  have hdone : ∀ c, s.customer c ≠ .arriving → s.done c = true := fun c hc =>
    (h.flow.view c).returned (h.allGone hover (h.flow.lt hc))
  by_contra hbusy
  cases hpc : s.chef j with
  | start | looking | returned =>
    rw [hpc] at hbusy
    exact hbusy rfl
  | accepting idx doneTime last =>
    have hat : s.AtCashier idx := h.flow.acceptors.busy_of (j := j) (by rw [hpc]; rfl)
    have hlate := (h.flow.view idx).paid.mp hat.1
    have := hdone idx fun harr => by
      rw [show (s.view idx).pc = .arriving from harr] at hlate
      cases hlate
    rw [hat.2.2] at this
    cases this
  | baking idx bakeDone last =>
    have hin : s.InOven idx := h.flow.bakers.busy_of (j := j) (by rw [hpc]; rfl)
    have hask := (h.flow.view idx).requested.mp ((h.flow.view idx).baking hin.1)
    have hd := hdone idx fun harr => by
      rw [show (s.view idx).pc = .arriving from harr] at hask
      cases hask
    have := (h.flow.view idx).paid_ready ((h.flow.view idx).done hd)
    rw [show (s.view idx).ready = false from hin.2] at this
    cases this

/-- The chefs are told to stop with the last customer. -/
theorem WaitInv.over_change {m : Nat} (h : WaitInv m s) (hm : m = input.length)
    (hch : Change input fits s s') (hover : (m : Int) ≤ s'.customersFinished) :
    s'.simulationDone = true := by
  subst hm
  cases hch with
  | pause | tick | setTimer | endMain | refuse | enter | sit | stand | sitDown | request | pay
  | chefIdle
  | startAccept | endAccept | startBake | endBake => exact h.finished hover
  | setMain => rfl
  | leave known waiting done nobody last | leaveSeat known waiting done stands last =>
    show _ = true
    rw [last, decide_eq_true hover, Bool.or_true]

/-- Without a tick nobody is baked for. -/
theorem WaitInv.start_change {m : Nat} (h : WaitInv m s) (hstart : s.timer = .start)
    (htime : s'.currentTime = s.currentTime) (hch : Change input fits s s') (c : Nat) :
    s'.Unserved c := by
  have hopen := h.start hstart
  cases hch with
  | pause | setTimer | endMain | setMain | refuse | enter | sit | stand | sitDown | pay | leave
  | leaveSeat
  | chefIdle | startAccept | endAccept | endBake => exact hopen c
  | tick =>
    change s.currentTime + 1 = s.currentTime at htime
    simp at htime
  | request known sitting elapsed =>
    rename_i d sitDone waits
    refine ⟨(hopen c).1, fun hreq => ?_⟩
    show Function.update s.requestTime d s.currentTime c = s.currentTime
    by_cases hcd : c = d
    · rw [hcd, Function.update_self]
    · rw [Function.update_of_ne hcd]
      exact (hopen c).2 (by simpa [Function.update_of_ne hcd] using hreq)
  | startBake looking noPayment found sum =>
    -- a request is served after a tick only
    obtain ⟨-, -, hwants⟩ := ArrayQueue.findIdx_eq_some found
    simp only [State.wants, Bool.and_eq_true, decide_eq_true_eq] at hwants
    rw [(hopen _).2 hwants.1.1.1] at hwants
    exact absurd hwants.2 Int32.lt_irrefl

/-- The tick of the timer. -/
theorem timerStep_cases (hstep : timerStep n s = some s') :
    s'.timer = (if s.customersFinished < n then .sleeping else .returned) ∧
    s'.customersFinished = s.customersFinished ∧
    (s.timer = .start ∨ s.timer = .sleeping ∧ ∀ t, s'.waits t ≠ some .timeTick) := by
  unfold timerStep at hstep
  split at hstep
  · next hstart =>
    cases hstep
    exact ⟨rfl, rfl, Or.inl hstart⟩
  · next hsleep =>
    cases hstep
    refine ⟨rfl, rfl, Or.inr ⟨hsleep, fun t => ?_⟩⟩
    have hticked := waits_broadcast_ne { s with currentTime := s.currentTime + 1 } .timeTick t
    rcases waits_broadcast (({ s with currentTime := s.currentTime + 1 } : State).broadcast
      .timeTick) .workAvailable t with h | h
    · exact fun hw => hticked (h.symm.trans hw)
    · exact fun hw => by cases h.symm.trans hw
  · cases hstep

/-- Before the timer has started nobody is gone. -/
theorem WaitInv.unfinished (h : WaitInv n s) (hb : BakeryInv input s) (hstart : s.timer = .start) :
    s.customersFinished = 0 := by
  rw [hb.count.finished]
  refine tally_eq_zero fun c _ => ?_
  have hview := hb.flow.view c
  -- one that is gone has paid for its cake
  have hpc : s.customer c ≠ .returned := fun hgone => by
    have hbaking := hview.ready (hview.paid_ready (hview.done (hview.returned hgone)))
    rw [show (s.view c).baking = false from (h.start hstart c).1] at hbaking
    cases hbaking
  rw [State.isGone]
  simpa using hpc

theorem finished_le (hch : Change input fits s s') :
    s.customersFinished ≤ s'.customersFinished := by
  cases hch with
  | leave | leaveSeat => exact Int.le_of_lt (Int.lt_succ _)
  | pause | tick | setTimer | setMain | endMain | refuse | enter | sit | stand | sitDown | request
  | pay
  | chefIdle | startAccept | endAccept | startBake | endBake => exact Int.le_refl _

/-- After the timer has returned nobody blocks any more. -/
theorem WaitInv.stay_stopped {e : Event} (h : WaitInv input.length s) (hb : BakeryInv input s)
    (hb' : BakeryInv input s') (hstep : Step input s e s') (hret : s.timer = .returned) :
    (input.length : Int) ≤ s'.customersFinished ∧ ∀ t, s'.waits t = none := by
  obtain ⟨hover, hnone⟩ := h.stopped hret
  have hover' := Int.le_trans hover (finished_le (hb.inv.change hstep))
  refine ⟨hover', fun t => ?_⟩
  rcases hstep.waits t with hw | hw | ⟨he, hblocks⟩
  · exact hw.trans (hnone t)
  · exact hw
  · exfalso
    cases t with
    | timer | main => exact hblocks
    | chef j =>
      rcases hblocks.2 with hbusy | hnot
      · rw [hb'.idle hover' j] at hbusy
        cases hbusy
      · rw [h.finished hover] at hnot
        cases hnot
    | customer c =>
      cases hstep with
      | wake blocked =>
        rw [hnone] at blocked
        cases blocked
      | run ready step =>
        cases he
        change customerStep input c s = some s' at step
        unfold customerStep at step
        rw [hb.allGone hover hblocks.1] at step
        cases hci : input[c]? <;> rw [hci] at step <;> cases step

/-- **Every step keeps the invariant of the waits.** -/
theorem WaitInv.step {e : Event} (h : WaitInv input.length s) (hb : BakeryInv input s)
    (hn : input.length ≤ maxCustomers) (hpos : 0 < input.length) (hstep : Step input s e s') :
    WaitInv input.length s' := by
  have hb' := hb.step hn hstep
  have hch := hb.inv.change hstep
  obtain ⟨hclock, hcust⟩ := hb.inv.frame hstep
  have hnobody : ∀ t, s'.waits t ≠ some .workAvailable := fun t => by
    rcases hstep.waits t with hw | hw | ⟨-, hblocks⟩
    · rw [hw]
      exact h.nobody t
    · rw [hw]
      rintro ⟨⟩
    · cases t with
      | timer | main => exact hblocks.elim
      | chef j =>
        rw [hblocks.1]
        rintro ⟨⟩
      | customer c => exact hblocks.2.1
  have htimer : s'.waits .timer = none := by
    rcases hstep.waits .timer with hw | hw | ⟨-, hblocks⟩
    · exact hw.trans h.timer
    · exact hw
    · exact hblocks.elim
  have hmain : s'.waits .main = none := by
    rcases hstep.waits .main with hw | hw | ⟨-, hblocks⟩
    · exact hw.trans h.main
    · exact hw
    · exact hblocks.elim
  have hchef : ∀ j cond, s'.waits (.chef j) = some cond → cond = .timeTick := fun j cond hj => by
    rcases hstep.waits (.chef j) with hw | hw | ⟨-, hblocks⟩
    · exact h.chef j cond (hw.symm.trans hj)
    · cases hw.symm.trans hj
    · exact (Option.some.inj (hblocks.1.symm.trans hj)).symm
  have hgone : ∀ c, s'.customer c = .returned → s'.waits (.customer c) = none := fun c hc => by
    rcases hstep.waits (.customer c) with hw | hw | ⟨-, hblocks⟩
    · -- it was gone before, or it has just run and was not blocked
      rw [hw]
      by_cases he : e = .run (.customer c)
      · subst he
        cases hstep with
        | run ready step => exact ready
      · exact h.gone c ((hcust c he).symm.trans hc)
    · exact hw
    · exact absurd hc hblocks.2.2
  have hknown : ∀ c, input.length ≤ c → s'.waits (.customer c) = none := fun c hc => by
    rcases hstep.waits (.customer c) with hw | hw | ⟨-, hblocks⟩
    · exact hw.trans (h.known c hc)
    · exact hw
    · exact absurd hc (Nat.not_le.mpr hblocks.1)
  refine ⟨hnobody, htimer, hmain, hchef, hgone, hknown, h.over_change rfl hch, fun hstart => ?_,
    fun hret => ?_⟩
  · -- the timer does not start again
    have he : e ≠ .run .timer := by
      rintro rfl
      cases hstep with
      | run ready step =>
        have hloop := (timerStep_cases step).1
        rw [hstart] at hloop
        split at hloop <;> cases hloop
    obtain ⟨hsame, htime⟩ := hclock he
    exact h.start_change (hsame.symm.trans hstart) htime hch
  · by_cases he : e = .run .timer
    · subst he
      cases hstep with
      | run ready step =>
        obtain ⟨hloop, hfin, hcase⟩ := timerStep_cases step
        have hover : (input.length : Int) ≤ s.customersFinished := by
          rw [hret] at hloop
          split at hloop
          · cases hloop
          · next hlt => exact Int.not_lt.mp hlt
        rcases hcase with hstart | ⟨-, hticked⟩
        · have := h.unfinished hb hstart
          omega
        · -- the last tick has woken up the chefs, and the customers are gone
          refine ⟨hfin ▸ hover, fun t => ?_⟩
          cases t with
          | timer => exact htimer
          | main => exact hmain
          | chef j =>
            cases hj : s'.waits (.chef j) with
            | none => rfl
            | some cond =>
              rw [hchef j cond hj] at hj
              exact absurd hj (hticked _)
          | customer c =>
            by_cases hc : c < input.length
            · exact hgone c (hb'.allGone (hfin ▸ hover) hc)
            · exact hknown c (Nat.not_lt.mp hc)
    · exact h.stay_stopped hb hb' hstep ((hclock he).1.symm.trans hret)

theorem WaitInv.init (hpos : 0 < input.length) : WaitInv input.length (init input) where
  nobody t := by rintro ⟨⟩
  timer := rfl
  main := rfl
  chef j cond hj := by cases hj
  gone c _ := rfl
  known c _ := rfl
  finished hle := by
    change (input.length : Int) ≤ 0 at hle
    omega
  start _ c := ⟨rfl, fun hreq => by cases hreq⟩
  stopped hret := by cases hret

theorem Reachable.waits (h : Reachable input s) (hpos : 0 < input.length) :
    WaitInv input.length s := by
  obtain ⟨hn, es, hrun⟩ := h
  have hboth := hrun.invariant (I := fun s => BakeryInv input s ∧ WaitInv input.length s)
    (fun _ _ _ hi hs => ⟨hi.1.step hn hs, hi.2.step hi.1 hn hpos hs⟩)
    ⟨BakeryInv.init input, WaitInv.init hpos⟩
  exact hboth.2

/-! ## Progress -/

/-- The threads of a run with `n` customers. -/
def IsThread (n : Nat) : Thread → Prop
  | .customer c => c < n
  | _ => True

/-- The thread has finished. -/
def State.Finished (s : State) : Thread → Prop
  | .timer => s.timer = .returned
  | .chef j => s.chef j = .returned
  | .customer c => s.customer c = .returned
  | .main => s.main = .returned

/-- The thread is not blocked and takes a step to `s'`. -/
def CanStep (input : List CustomerInput) (s : State) (t : Thread) (s' : State) : Prop :=
  s.waits t = none ∧ threadStep input s t = some s'

/-- A chef that has not returned has a next step. -/
theorem chefStep_isSome (hne : s.chef j ≠ .returned) : ∃ s', chefStep n j s = some s' := by
  unfold chefStep
  cases hpc : s.chef j with
  | returned => exact absurd hpc hne
  | start => exact ⟨_, rfl⟩
  | looking last =>
    dsimp only
    split
    · exact ⟨_, rfl⟩
    split
    · exact ⟨_, rfl⟩
    split <;> exact ⟨_, rfl⟩
  | accepting idx doneTime last =>
    dsimp only
    split <;> exact ⟨_, rfl⟩
  | baking idx bakeDone last =>
    dsimp only
    split <;> exact ⟨_, rfl⟩

/-- The timer has a next step until it returns. -/
theorem timerStep_isSome (hne : s.timer ≠ .returned) : ∃ s', timerStep n s = some s' := by
  unfold timerStep
  cases hpc : s.timer with
  | returned => exact absurd hpc hne
  | start => exact ⟨_, rfl⟩
  | sleeping => exact ⟨_, rfl⟩

/-- **Progress**: some thread can take a step, as long as one has not finished. -/
theorem WaitInv.progress (h : WaitInv input.length s) (hb : BakeryInv input s)
    (ht : IsThread input.length t) (hne : ¬ s.Finished t) : ∃ u s', CanStep input s u s' := by
  by_cases htimer : s.timer = .returned
  · obtain ⟨hover, hnone⟩ := h.stopped htimer
    by_cases hchefs : ∀ j, s.chef j = .returned
    · -- all others have returned, so it is main that has not
      have hcust : ∀ c, c < input.length → s.customer c = .returned := fun c hc =>
        hb.allGone hover hc
      have hmain : s.main ≠ .returned := by
        intro hm
        cases t with
        | timer => exact hne htimer
        | chef j => exact hne (hchefs j)
        | customer c => exact hne (hcust c ht)
        | main => exact hne hm
      refine ⟨.main, ?_⟩
      show ∃ s', s.waits .main = none ∧ mainStep input.length s = some s'
      unfold mainStep
      cases hpc : s.main with
      | returned => exact absurd hpc hmain
      | joinCustomers =>
        have hall : ((List.range input.length).all fun c => s.customer c = .returned) = true := by
          rw [List.all_eq_true]
          intro c hc
          exact decide_eq_true (hcust c (List.mem_range.mp hc))
        dsimp only
        rw [if_pos hall]
        exact ⟨_, h.main, rfl⟩
      | joinRest =>
        dsimp only
        rw [if_pos ⟨hchefs, htimer⟩]
        exact ⟨_, h.main, rfl⟩
    · push Not at hchefs
      obtain ⟨j, hj⟩ := hchefs
      obtain ⟨s', hs'⟩ := chefStep_isSome hj
      exact ⟨.chef j, s', hnone _, hs'⟩
  · obtain ⟨s', hs'⟩ := timerStep_isSome htimer
    exact ⟨.timer, s', h.timer, hs'⟩

/-- A blocked thread waits for a timer that has not returned. -/
theorem WaitInv.timer_runs (h : WaitInv n s) {cond : Cond} (hw : s.waits t = some cond) :
    s.timer ≠ .returned := by
  intro hret
  rw [(h.stopped hret).2 t] at hw
  cases hw

/-- **The simulation cannot hang.** In every reachable state with at least one customer, some thread
that is not blocked can take a step as long as a thread has not finished. Nobody waits on
`work_available`; after the last customer has left, a chef that is still blocked waits for a tick,
and the timer is asleep, with a step that wakes the chef up, which no other thread takes from it;
the chef then stops at its next step. The timer does not return while a thread is blocked. -/
theorem never_hangs (h : Reachable input s) (hpos : 0 < input.length) :
    (∀ t, IsThread input.length t → ¬ s.Finished t → ∃ u s', CanStep input s u s') ∧
    (∀ t, s.waits t ≠ some .workAvailable) ∧
    (∀ j cond, (input.length : Int) ≤ s.customersFinished → s.simulationDone = true →
      s.waits (.chef j) = some cond → cond = .timeTick ∧ s.timer = .sleeping ∧
        (∃ s', CanStep input s .timer s' ∧ s'.waits (.chef j) = none) ∧
        ∀ e s', Step input s e s' → e ≠ .run .timer → s'.timer = .sleeping) ∧
    (∀ j last, (input.length : Int) ≤ s.customersFinished → s.simulationDone = true →
      s.chef j = .looking last → s.waits (.chef j) = none →
        ∃ s', CanStep input s (.chef j) s' ∧ s'.chef j = .returned) ∧
    (s.timer = .returned → ∀ t, s.waits t = none) := by
  have hb := h.bakery
  have hw := h.waits hpos
  refine ⟨fun t ht hne => hw.progress hb ht hne, hw.nobody, fun j cond hover hdone hj => ?_,
    fun j last hover hdone hj hready => ?_, fun hret => (hw.stopped hret).2⟩
  · have hcond := hw.chef j cond hj
    have hsleep : s.timer = .sleeping := by
      cases htimer : s.timer with
      | sleeping => rfl
      | returned => exact absurd htimer (hw.timer_runs hj)
      | start =>
        have := hw.unfinished hb htimer
        omega
    refine ⟨hcond, hsleep, ?_, fun e s' hstep he => ((hb.inv.frame hstep).1 he).1.trans hsleep⟩
    obtain ⟨s', hs'⟩ := timerStep_isSome (n := input.length) (s := s) (by rw [hsleep]; rintro ⟨⟩)
    refine ⟨s', ⟨hw.timer, hs'⟩, ?_⟩
    have hw' := hw.step hb h.1 hpos (.run (t := .timer) hw.timer hs')
    obtain ⟨-, -, hstart | ⟨-, hticked⟩⟩ := timerStep_cases hs'
    · rw [hsleep] at hstart
      cases hstart
    · cases hj' : s'.waits (.chef j) with
      | none => rfl
      | some cond' =>
        rw [hw'.chef j cond' hj'] at hj'
        exact absurd hj' (hticked _)
  · refine ⟨s.setChef j .returned, ⟨hready, ?_⟩, Function.update_self ..⟩
    show chefStep input.length j s = some (s.setChef j .returned)
    unfold chefStep
    rw [hj]
    dsimp only
    rw [if_neg (fun hc => by rw [hdone] at hc; cases hc.2), if_pos ⟨hdone, hover⟩]

/-- The run of the only customer, up to its leave: the second chef has looked for work in the last
second and is blocked. -/
def lastLeft : State :=
  (Run.after (afterThread [⟨1, 5⟩]) [.timer, .chef 0, .chef 1, .customer 0, .timer,
    .customer 0, .timer,
    .customer 0, .timer, .chef 0, .timer, .timer, .chef 0, .customer 0, .timer, .chef 0, .timer,
    .timer, .chef 0, .chef 1, .chef 1, .customer 0] (init [⟨1, 5⟩])).getD (init [])

theorem lastLeft_reachable : Reachable [⟨1, 5⟩] lastLeft := by
  obtain ⟨s, hs⟩ : ∃ s, Run.after (afterThread [⟨1, 5⟩]) [.timer, .chef 0, .chef 1,
    .customer 0, .timer,
      .customer 0, .timer, .customer 0, .timer, .chef 0, .timer, .timer, .chef 0,
      .customer 0, .timer,
      .chef 0, .timer, .timer, .chef 0, .chef 1, .chef 1, .customer 0] (init [⟨1, 5⟩]) = some s :=
    Option.isSome_iff_exists.mp (by decide +kernel)
  rw [lastLeft, hs]
  exact reachable_of_after (by decide) hs

/-- The chef that is still blocked is woken up by the timer. -/
theorem never_hangs_last : lastLeft.waits (.chef 1) = some .timeTick ∧ lastLeft.timer = .sleeping ∧
    ∃ s', CanStep [⟨1, 5⟩] lastLeft .timer s' ∧ s'.waits (.chef 1) = none := by
  have hblocked : lastLeft.waits (.chef 1) = some .timeTick := by decide +kernel
  obtain ⟨-, -, hchef, -⟩ := never_hangs lastLeft_reachable (by decide)
  obtain ⟨-, hsleep, hwake, -⟩ := hchef 1 .timeTick (by decide +kernel) (by decide +kernel) hblocked
  exact ⟨hblocked, hsleep, hwake⟩

end Bakery
