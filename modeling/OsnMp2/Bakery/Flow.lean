import OsnMp2.Bakery.Requests
import OsnMp2.Lib.Assignment

/-!
# How customers and chefs go through the bakery

The changes that a step can make to the shared variables, each with the conditions under which it is
made, and the invariant of the control points: how far a customer has come decides which of its
flags are set, a cake that is being baked has one chef that bakes it, and a payment that is being
accepted has one chef that accepts it.

## Main definitions

* `State.adds`: the seconds that a thread adds to the current time
* `Change`: what a step can do
* `State.view`, `CustomerView.Ok`: the flags of a customer at each of its control points
* `FlowInv`: the invariant of the control points

## Main results

* `Inv.change_of`, `Inv.change`: every step makes one of the changes
* `FlowInv.change`: every change keeps the invariant
-/

namespace Bakery

variable {input : List CustomerInput} {fits : Thread → Int32 → Prop} {s s' : State} {c d : Nat}
  {j : Fin maxChefs}

/-! ## What a step can do -/

/-- **The seconds that the step of a thread adds to the current time**, when it forms such
a sum: the timer moves the clock, a customer enters or sits down, a chef starts to accept
a payment or to bake. -/
def State.adds (input : List CustomerInput) (s : State) : Thread → Option Int32
  | .timer => if s.timer = .sleeping then some 1 else none
  | .main => none
  | .customer c =>
    match s.customer c with
    | .arriving =>
      if (∃ ci ∈ input[c]?, ci.arrivalTime ≤ s.currentTime) ∧
        s.customersInside < (maxCustomers : Int) then some 1
      else none
    | .entering enterDone =>
      if enterDone ≤ s.currentTime ∧ s.sofaCount < (maxSofa : Int) then some 1 else none
    | .standing => if s.seated c then some 1 else none
    | _ => none
  | .chef j =>
    match s.chef j with
    | .looking lastAction =>
      if (s.currentTime ≤ lastAction ∧ s.simulationDone = false) ∨
          (s.simulationDone = true ∧ (input.length : Int) ≤ s.customersFinished) then none
      else if s.canAccept || (s.onSofa.findIdx s.wants).isSome then some 2
      else none
    | _ => none

/-- **The changes that a step can make.** `fits` is known of the thread that adds seconds to the
current time, and of the seconds. -/
inductive Change (input : List CustomerInput) (fits : Thread → Int32 → Prop) (s : State) :
    State → Prop
  /-- a thread waits or wakes up -/
  | pause {waits : Thread → Option Cond} : Change input fits s { s with waits }
  | tick {waits : Thread → Option Cond} {timer : TimerPc} (sum : fits .timer 1) :
      Change input fits s { s with currentTime := s.currentTime + 1, waits, timer }
  | setTimer {timer : TimerPc} : Change input fits s { s with timer }
  | setMain {waits : Thread → Option Cond} {main : MainPc}
      (all : ∀ c, c < input.length → s.customer c = .returned) :
      Change input fits s { s with simulationDone := true, waits, main }
  | endMain {main : MainPc} : Change input fits s { s with main }
  | refuse {c : Nat} {ci : CustomerInput} (known : input[c]? = some ci)
      (arriving : s.customer c = .arriving) (full : (maxCustomers : Int) ≤ s.customersInside) :
      Change input fits s { s with customer := Function.update s.customer c .returned }
  | enter {c : Nat} {ci : CustomerInput} {waits : Thread → Option Cond}
      (known : input[c]? = some ci)
      (arriving : s.customer c = .arriving) (arrived : ci.arrivalTime ≤ s.currentTime)
      (sum : fits (.customer c) 1) :
      Change input fits s { s with
        customersInside := s.customersInside + 1
        entered := Function.update s.entered c true
        customer := Function.update s.customer c (.entering (s.currentTime + 1))
        out := s.out ++ [.enters s.currentTime c], waits }
  | sit {c : Nat} {enterDone : Int32} {waits : Thread → Option Cond} (known : c < input.length)
      (entering : s.customer c = .entering enterDone) (elapsed : enterDone ≤ s.currentTime)
      (room : s.sofaCount < (maxSofa : Int)) (sum : fits (.customer c) 1) :
      Change input fits s { s with
        sofaCount := s.sofaCount + 1
        onSofa := s.onSofa.push c
        seated := Function.update s.seated c true
        customer := Function.update s.customer c (.sitting (s.currentTime + 1))
        out := s.out ++ [.sits s.currentTime c], waits }
  | stand {c : Nat} {enterDone : Int32} {waits : Thread → Option Cond} (known : c < input.length)
      (entering : s.customer c = .entering enterDone) (elapsed : enterDone ≤ s.currentTime)
      (full : (maxSofa : Int) ≤ s.sofaCount) :
      Change input fits s { s with
        standing := s.standing.push c
        customer := Function.update s.customer c .standing, waits }
  | sitDown {c : Nat} {waits : Thread → Option Cond} (known : c < input.length)
      (standing : s.customer c = .standing) (seated : s.seated c = true)
      (sum : fits (.customer c) 1) : Change input fits s { s with
        customer := Function.update s.customer c (.sitting (s.currentTime + 1))
        out := s.out ++ [.sits s.currentTime c], waits }
  | request {c : Nat} {sitDone : Int32} {waits : Thread → Option Cond} (known : c < input.length)
      (sitting : s.customer c = .sitting sitDone) (elapsed : sitDone ≤ s.currentTime) :
      Change input fits s { s with
        requested := Function.update s.requested c true
        requestTime := Function.update s.requestTime c s.currentTime
        customer := Function.update s.customer c .waitingCake
        out := s.out ++ [.requests s.currentTime c], waits }
  | pay {c : Nat} {waits : Thread → Option Cond} (known : c < input.length)
      (waiting : s.customer c = .waitingCake) (ready : s.readyToPay c = true) :
      Change input fits s { s with
        waitingPayment := s.waitingPayment.push c
        paid := Function.update s.paid c true
        paymentTime := Function.update s.paymentTime c s.currentTime
        customer := Function.update s.customer c .waitingDone
        out := s.out ++ [.pays s.currentTime c], waits }
  /-- nobody stands -/
  | leave {c : Nat} {waits : Thread → Option Cond} {ended : Bool} (known : c < input.length)
      (waiting : s.customer c = .waitingDone) (done : s.done c = true)
      (nobody : s.standing.tail ≤ s.standing.head)
      (last : ended = (s.simulationDone ||
        decide ((input.length : Int) ≤ s.customersFinished + 1))) :
      Change input fits s { s with
        customersInside := s.customersInside - 1
        customersFinished := s.customersFinished + 1
        sofaCount := s.sofaCount - 1
        simulationDone := ended
        customer := Function.update s.customer c .returned
        out := s.out ++ [.leaves s.currentTime c], waits }
  /-- the first standing customer gets the seat -/
  | leaveSeat {c : Nat} {waits : Thread → Option Cond} {ended : Bool} (known : c < input.length)
      (waiting : s.customer c = .waitingDone) (done : s.done c = true)
      (stands : s.standing.head < s.standing.tail)
      (last : ended = (s.simulationDone ||
        decide ((input.length : Int) ≤ s.customersFinished + 1))) :
      Change input fits s { s with
        customersInside := s.customersInside - 1
        customersFinished := s.customersFinished + 1
        sofaCount := s.sofaCount - 1 + 1
        standing := s.standing.pop
        onSofa := s.onSofa.push s.standing.front
        seated := Function.update s.seated s.standing.front true
        simulationDone := ended
        customer := Function.update s.customer c .returned
        out := s.out ++ [.leaves s.currentTime c], waits }
  | chefIdle {j : Fin maxChefs} {pc : ChefPc} {waits : Thread → Option Cond}
      (before : (s.chef j).busy = false) (after : pc.busy = false) :
      Change input fits s { s with chef := Function.update s.chef j pc, waits }
  | startAccept {j : Fin maxChefs} {last : Int32} {waits : Thread → Option Cond}
      (looking : s.chef j = .looking last) (queue : s.waitingPayment.head < s.waitingPayment.tail)
      (free : s.cashierFree = true) (earlier : s.paymentTime s.waitingPayment.front < s.currentTime)
      (sum : fits (.chef j) 2) :
      Change input fits s { s with
        waitingPayment := s.waitingPayment.pop
        cashierFree := false
        chefsIdle := s.chefsIdle - 1
        chef := Function.update s.chef j (.accepting s.waitingPayment.front
          (s.currentTime + 2) last)
        out := s.out ++ [.accepts s.currentTime j s.waitingPayment.front], waits }
  | endAccept {j : Fin maxChefs} {idx : Nat} {doneTime last : Int32} {waits : Thread → Option Cond}
      (accepting : s.chef j = .accepting idx doneTime last) (elapsed : doneTime ≤ s.currentTime) :
      Change input fits s { s with
        done := Function.update s.done idx true
        cashierFree := true
        chefsIdle := s.chefsIdle + 1
        chef := Function.update s.chef j (.looking last), waits }
  | startBake {j : Fin maxChefs} {i : Nat} {last : Int32} {waits : Thread → Option Cond}
      (looking : s.chef j = .looking last) (noPayment : s.canAccept = false)
      (found : s.onSofa.findIdx s.wants = some i) (sum : fits (.chef j) 2) :
      Change input fits s { s with
        onSofa := s.onSofa.removeAt i
        ovensUsed := s.ovensUsed + 1
        chefsIdle := s.chefsIdle - 1
        baking := Function.update s.baking (s.onSofa.data i) true
        chef := Function.update s.chef j (.baking (s.onSofa.data i) (s.currentTime + 2) last)
        out := s.out ++ [.bakes s.currentTime j (s.onSofa.data i)], waits }
  | endBake {j : Fin maxChefs} {idx : Nat} {bakeDone last : Int32} {waits : Thread → Option Cond}
      (baking : s.chef j = .baking idx bakeDone last) (elapsed : bakeDone ≤ s.currentTime) :
      Change input fits s { s with
        readyToPay := Function.update s.readyToPay idx true
        ovensUsed := s.ovensUsed - 1
        chefsIdle := s.chefsIdle + 1
        chef := Function.update s.chef j (.looking last), waits }

/-- The step of a customer that leaves. -/
theorem Change.of_leave (known : c < input.length) (waiting : s.customer c = .waitingDone)
    (done : s.done c = true) : Change input fits s (Bakery.leave input.length s c) := by
  unfold Bakery.leave endIfLast seatNext
  by_cases hstands : s.standing.head < s.standing.tail
  · rw [if_pos (show (goOut s c).standing.head < (goOut s c).standing.tail from hstands)]
    split
    · next hlast =>
      exact .leaveSeat known waiting done hstands (by
        rw [decide_eq_true (show (input.length : Int) ≤ s.customersFinished + 1 from hlast),
          Bool.or_true]
        rfl)
    · next hlast =>
      exact .leaveSeat known waiting done hstands (by
        rw [decide_eq_false (show ¬ (input.length : Int) ≤ s.customersFinished + 1 from hlast),
          Bool.or_false]
        rfl)
  · rw [if_neg (show ¬ (goOut s c).standing.head < (goOut s c).standing.tail from hstands)]
    split
    · next hlast =>
      exact .leave known waiting done (Nat.not_lt.mp hstands) (by
        rw [decide_eq_true (show (input.length : Int) ≤ s.customersFinished + 1 from hlast),
          Bool.or_true]
        rfl)
    · next hlast =>
      exact .leave known waiting done (Nat.not_lt.mp hstands) (by
        rw [decide_eq_false (show ¬ (input.length : Int) ≤ s.customersFinished + 1 from hlast),
          Bool.or_false]
        rfl)

theorem Change.of_customerStep
    (hfits : ∀ k, s.adds input (.customer c) = some k → fits (.customer c) k)
    (hstep : customerStep input c s = some s') : Change input fits s s' := by
  -- One case for each place of the customer. Where the step adds to the time, `hfits` bounds the
  -- sum.
  unfold customerStep at hstep
  cases hci : input[c]? with
  | none => rw [hci] at hstep; cases hstep
  | some ci =>
    have known : c < input.length := (List.getElem?_eq_some_iff.mp hci).1
    rw [hci] at hstep
    dsimp only at hstep
    cases hpc : s.customer c with
    | returned => rw [hpc] at hstep; cases hstep
    | arriving =>
      rw [hpc] at hstep
      dsimp only at hstep
      split at hstep
      · cases hstep
        exact .pause
      · next harr =>
        cases hstep
        unfold Bakery.enter
        split
        · next hfull => exact .refuse hci hpc hfull
        · next hplace =>
          -- one second is added to the time
          have harrived := Int32.not_lt.mp harr
          refine .enter hci hpc harrived (hfits 1 ?_)
          simp only [State.adds, hpc]
          rw [if_pos ⟨⟨ci, hci, harrived⟩, Int.not_le.mp hplace⟩]
    | entering enterDone =>
      rw [hpc] at hstep
      dsimp only at hstep
      split at hstep
      · cases hstep
        exact .pause
      · next hover =>
        cases hstep
        unfold Bakery.trySit
        split
        · next hroom =>
          have helapsed := Int32.not_lt.mp hover
          refine .sit known hpc helapsed hroom (hfits 1 ?_)
          simp only [State.adds, hpc]
          rw [if_pos ⟨helapsed, hroom⟩]
        · next hroom => exact .stand known hpc (Int32.not_lt.mp hover) (Int.not_lt.mp hroom)
    | standing =>
      rw [hpc] at hstep
      dsimp only at hstep
      split at hstep
      · cases hstep
        exact .pause
      · next hseat =>
        cases hstep
        have hseated : s.seated c = true := by simpa using hseat
        exact .sitDown known hpc hseated (hfits 1 (by simp [State.adds, hpc, hseated]))
    | sitting sitDone =>
      rw [hpc] at hstep
      dsimp only at hstep
      split at hstep
      · cases hstep
        exact .pause
      · next hover =>
        cases hstep
        exact .request known hpc (Int32.not_lt.mp hover)
    | waitingCake =>
      rw [hpc] at hstep
      dsimp only at hstep
      split at hstep
      · cases hstep
        exact .pause
      · next hready =>
        cases hstep
        exact .pay known hpc (by simpa using hready)
    | waitingDone =>
      rw [hpc] at hstep
      dsimp only at hstep
      split at hstep
      · cases hstep
        exact .pause
      · next hdone =>
        cases hstep
        exact .of_leave known hpc (by simpa using hdone)

theorem ChefInv.change (h : ChefInv s)
    (hfits : ∀ k, s.adds input (.chef j) = some k → fits (.chef j) k)
    (hstep : Bakery.chefStep input.length j s = some s') : Change input fits s s' := by
  unfold Bakery.chefStep at hstep
  cases hpc : s.chef j with
  | returned => rw [hpc] at hstep; cases hstep
  | start =>
    rw [hpc] at hstep
    cases hstep
    exact .chefIdle (by rw [hpc]; rfl) rfl
  | looking last =>
    rw [hpc] at hstep
    dsimp only at hstep
    split at hstep
    · cases hstep
      exact .pause
    next hlater =>
    split at hstep
    · cases hstep
      exact .chefIdle (by rw [hpc]; rfl) rfl
    next hgoes =>
    -- Whether the chef accepts or bakes, the work takes two seconds.
    have hadds : s.canAccept || (s.onSofa.findIdx s.wants).isSome →
        s.adds input (.chef j) = some 2 := fun hwork => by
      simp only [State.adds, hpc]
      rw [if_neg (not_or.mpr ⟨hlater, hgoes⟩), if_pos hwork]
    split at hstep
    · next hcan =>
      cases hstep
      have hsum := hfits 2 (hadds (by rw [hcan]; rfl))
      simp only [State.canAccept, Bool.and_eq_true, decide_eq_true_eq] at hcan
      obtain ⟨⟨⟨hqueue, hfree⟩, -⟩, hearlier⟩ := hcan
      exact .startAccept hpc hqueue hfree hearlier hsum
    · next hcan =>
      cases hstep
      unfold lookForRequest
      cases hfind : s.onSofa.findIdx s.wants with
      | none => exact .chefIdle (by rw [hpc]; rfl) rfl
      | some i =>
        -- a chef who looks for work has its oven free
        obtain ⟨hidle, hoven⟩ := h.free (j := j) (by rw [hpc]; rfl)
        dsimp only
        rw [if_pos ⟨hoven, hidle⟩]
        exact .startBake hpc (by simpa using hcan) hfind (hfits 2 (hadds (by simp [hfind])))
  | accepting idx doneTime last =>
    rw [hpc] at hstep
    dsimp only at hstep
    split at hstep
    · cases hstep
      exact .pause
    · next hover =>
      cases hstep
      exact .endAccept hpc (Int32.not_lt.mp hover)
  | baking idx bakeDone last =>
    rw [hpc] at hstep
    dsimp only at hstep
    split at hstep
    · cases hstep
      exact .pause
    · next hover =>
      cases hstep
      exact .endBake hpc (Int32.not_lt.mp hover)

/-- **Every step makes one of the changes**, with what is known of the seconds that it adds. -/
theorem Inv.change_of {e : Event} (h : Inv s)
    (hfits : ∀ t k, e = .run t → s.adds input t = some k → fits t k) (hstep : Step input s e s') :
    Change input fits s s' := by
  cases hstep with
  | wake blocked => exact .pause
  | run ready step =>
    rename_i t
    have hthis := fun k => hfits t k rfl
    cases t with
    | customer c => exact .of_customerStep hthis step
    | chef j => exact h.chefs.change hthis step
    | timer =>
      change timerStep input.length s = some s' at step
      unfold timerStep at step
      split at step
      · cases step
        exact .setTimer
      · next hsleep =>
        cases step
        exact .tick (hthis 1 (by simp [State.adds, hsleep]))
      · cases step
    | main =>
      change mainStep input.length s = some s' at step
      unfold mainStep at step
      split at step
      · split at step
        · next hall =>
          cases step
          refine .setMain fun c hc => ?_
          simpa using List.all_eq_true.mp hall c (List.mem_range.mpr hc)
        · cases step
      · split at step
        · cases step
          exact .endMain
        · cases step
      · cases step

/-- Every step makes one of the changes. -/
theorem Inv.change {e : Event} (h : Inv s) (hstep : Step input s e s') :
    Change input (fun _ _ => True) s s' :=
  h.change_of (fun _ _ _ _ => trivial) hstep

/-! ## The flags of a customer -/

/-- The customer has sat down. -/
def CustomerPc.sits : CustomerPc → Bool
  | .sitting _ | .waitingCake | .waitingDone | .returned => true
  | _ => false

/-- The customer has requested its cake. -/
def CustomerPc.asked : CustomerPc → Bool
  | .waitingCake | .waitingDone | .returned => true
  | _ => false

/-- What the state says about one customer. -/
structure CustomerView where
  pc : CustomerPc
  entered : Bool
  seated : Bool
  requested : Bool
  baking : Bool
  ready : Bool
  paid : Bool
  done : Bool

def State.view (s : State) (c : Nat) : CustomerView :=
  ⟨s.customer c, s.entered c, s.seated c, s.requested c, s.baking c, s.readyToPay c,
    s.paid c, s.done c⟩

/-- **The flags at each control point.** -/
structure CustomerView.Ok (v : CustomerView) : Prop where
  entered : v.entered = true ↔ v.pc ≠ .arriving
  seated : v.seated = true → v.pc.early = false
  sits : v.pc.sits = true → v.seated = true
  requested : v.requested = true ↔ v.pc.asked = true
  baking : v.baking = true → v.requested = true
  ready : v.ready = true → v.baking = true
  paid : v.paid = true ↔ v.pc.late = true
  paid_ready : v.paid = true → v.ready = true
  done : v.done = true → v.paid = true
  returned : v.pc = .returned → v.done = true

section View

variable {v : CustomerView}

theorem CustomerView.Ok.enter {t : Int32} (h : v.Ok) (hpc : v.pc = .arriving) :
    ({ v with pc := .entering t, entered := true } : CustomerView).Ok := by
  obtain ⟨he, hse, hsi, hr, hb, hy, hp, hpr, hd, -⟩ := h
  rw [hpc] at hr hp
  exact ⟨by simp, fun _ => by simp_all [CustomerPc.early], fun hc => absurd hc Bool.false_ne_true,
    hr, hb, hy, hp, hpr,
    hd, by simp⟩

theorem CustomerView.Ok.stand {t : Int32} (h : v.Ok) (hpc : v.pc = .entering t) :
    ({ v with pc := .standing } : CustomerView).Ok := by
  obtain ⟨he, hse, hsi, hr, hb, hy, hp, hpr, hd, -⟩ := h
  rw [hpc] at he hr hp
  exact ⟨by simpa using he, fun _ => rfl, fun hc => absurd hc Bool.false_ne_true, hr, hb, hy, hp,
    hpr, hd, by simp⟩

/-- The customer sits down, with a seat. -/
theorem CustomerView.Ok.sit {t : Int32} (h : v.Ok)
    (hpc : (∃ t, v.pc = .entering t) ∨ v.pc = .standing) :
    ({ v with pc := .sitting t, seated := true } : CustomerView).Ok := by
  obtain ⟨he, hse, hsi, hr, hb, hy, hp, hpr, hd, -⟩ := h
  have hentered : v.entered = true := he.mpr
    (by rcases hpc with ⟨t, hpc⟩ | hpc <;> rw [hpc] <;> simp)
  have hasked : v.pc.asked = false := by rcases hpc with ⟨t, hpc⟩ | hpc <;> rw [hpc] <;> rfl
  have hlate : v.pc.late = false := by rcases hpc with ⟨t, hpc⟩ | hpc <;> rw [hpc] <;> rfl
  rw [hasked] at hr
  rw [hlate] at hp
  exact ⟨by simpa using hentered, fun _ => rfl, fun _ => rfl, hr, hb, hy, hp, hpr, hd, by simp⟩

/-- A standing customer gets a seat. -/
theorem CustomerView.Ok.seat (h : v.Ok) (hpc : v.pc = .standing) :
    ({ v with seated := true } : CustomerView).Ok := by
  obtain ⟨he, hse, hsi, hr, hb, hy, hp, hpr, hd, hret⟩ := h
  exact ⟨he, fun _ => by rw [hpc]; rfl, fun _ => rfl, hr, hb, hy, hp, hpr, hd, hret⟩

theorem CustomerView.Ok.request {t : Int32} (h : v.Ok) (hpc : v.pc = .sitting t) :
    ({ v with pc := .waitingCake, requested := true } : CustomerView).Ok := by
  obtain ⟨he, hse, hsi, hr, hb, hy, hp, hpr, hd, -⟩ := h
  rw [hpc] at he hp
  exact ⟨by simpa using he, fun _ => rfl, fun _ => hsi (by rw [hpc]; rfl),
    by simp [CustomerPc.asked],
    fun _ => rfl, hy, hp, hpr, hd, by simp⟩

theorem CustomerView.Ok.pay (h : v.Ok) (hpc : v.pc = .waitingCake) (hready : v.ready = true) :
    ({ v with pc := .waitingDone, paid := true } : CustomerView).Ok := by
  obtain ⟨he, hse, hsi, hr, hb, hy, hp, hpr, hd, -⟩ := h
  rw [hpc] at he hr
  exact ⟨by simpa using he, fun _ => rfl, fun _ => hsi (by rw [hpc]; rfl), hr, hb, hy, by
    simp [CustomerPc.late], fun _ => hready, fun _ => rfl, by simp⟩

theorem CustomerView.Ok.leave (h : v.Ok) (hpc : v.pc = .waitingDone) (hdone : v.done = true) :
    ({ v with pc := .returned } : CustomerView).Ok := by
  obtain ⟨he, hse, hsi, hr, hb, hy, hp, hpr, hd, -⟩ := h
  rw [hpc] at he hr hp
  exact ⟨by simpa using he, fun _ => rfl, fun _ => hsi (by rw [hpc]; rfl), hr, hb, hy, hp, hpr, hd,
    fun _ => hdone⟩

theorem CustomerView.Ok.bake (h : v.Ok) (hreq : v.requested = true) :
    ({ v with baking := true } : CustomerView).Ok := by
  obtain ⟨he, hse, hsi, hr, hb, hy, hp, hpr, hd, hret⟩ := h
  exact ⟨he, hse, hsi, hr, fun _ => hreq, fun _ => rfl, hp, hpr, hd, hret⟩

theorem CustomerView.Ok.bakeDone (h : v.Ok) (hbaking : v.baking = true) :
    ({ v with ready := true } : CustomerView).Ok := by
  obtain ⟨he, hse, hsi, hr, hb, hy, hp, hpr, hd, hret⟩ := h
  exact ⟨he, hse, hsi, hr, hb, fun _ => hbaking, hp, fun _ => rfl, hd, hret⟩

theorem CustomerView.Ok.acceptDone (h : v.Ok) (hpaid : v.paid = true) :
    ({ v with done := true } : CustomerView).Ok := by
  obtain ⟨he, hse, hsi, hr, hb, hy, hp, hpr, hd, hret⟩ := h
  exact ⟨he, hse, hsi, hr, hb, hy, hp, hpr, fun _ => hpaid, fun _ => rfl⟩

end View

/-! ## The invariant of the control points -/

/-- The customer for whom the chef bakes. -/
def ChefPc.bakesFor : ChefPc → Option Nat
  | .baking idx _ _ => some idx
  | _ => none

/-- The customer whose payment the chef accepts. -/
def ChefPc.acceptsFor : ChefPc → Option Nat
  | .accepting idx _ _ => some idx
  | _ => none

/-- The cake of the customer is in an oven. -/
def State.InOven (s : State) (c : Nat) : Prop := s.baking c = true ∧ s.readyToPay c = false

/-- The payment of the customer is being accepted. -/
def State.AtCashier (s : State) (c : Nat) : Prop :=
  s.paid c = true ∧ c ∉ s.waitingPayment.contents ∧ s.done c = false

/-- **The invariant of the control points**, for `n` customers. -/
structure FlowInv (n : Nat) (s : State) : Prop where
  view : ∀ c, (s.view c).Ok
  range : ∀ c, n ≤ c → s.customer c = .arriving
  bakers : Assigned (fun j => (s.chef j).bakesFor) s.InOven
  acceptors : Assigned (fun j => (s.chef j).acceptsFor) s.AtCashier
  payers : ∀ c ∈ s.waitingPayment.contents, s.paid c = true ∧ s.done c = false
  cashier : s.cashierFree = false ↔ ∃ c, s.AtCashier c
  single : ∀ c d, s.AtCashier c → s.AtCashier d → c = d

/-- A change that concerns neither cakes nor payments. -/
theorem FlowInv.of_view {n : Nat} (h : FlowInv n s) (hview : ∀ c, (s'.view c).Ok)
    (hrange : ∀ c, n ≤ c → s'.customer c = .arriving) (hchef : s'.chef = s.chef)
    (hbaking : s'.baking = s.baking) (hready : s'.readyToPay = s.readyToPay)
    (hpaid : s'.paid = s.paid)
    (hdone : s'.done = s.done) (hqueue : s'.waitingPayment = s.waitingPayment)
    (hcashier : s'.cashierFree = s.cashierFree) : FlowInv n s' := by
  have hoven : s'.InOven = s.InOven := by
    funext c
    rw [State.InOven, State.InOven, hbaking, hready]
  have hpay : s'.AtCashier = s.AtCashier := by
    funext c
    rw [State.AtCashier, State.AtCashier, hpaid, hdone, hqueue]
  refine ⟨hview, hrange, ?_, ?_, ?_, ?_, ?_⟩
  · rw [hchef, hoven]
    exact h.bakers
  · rw [hchef, hpay]
    exact h.acceptors
  · rw [hqueue, hpaid, hdone]
    exact h.payers
  · rw [hcashier, hpay]
    exact h.cashier
  · rw [hpay]
    exact h.single

theorem view_update {v : CustomerView} (hc : s'.view c = v)
    (hd : ∀ d, d ≠ c → s'.view d = s.view d) : s'.view = Function.update s.view c v := by
  funext d
  by_cases hdc : d = c
  · rw [hdc, hc, Function.update_self]
  · rw [hd d hdc, Function.update_of_ne hdc]

/-- One customer moves, and its flags with it. -/
theorem FlowInv.ok_update {n : Nat} (h : FlowInv n s) {v : CustomerView}
    (hview : s'.view = Function.update s.view c v) (hv : v.Ok) (e : Nat) : (s'.view e).Ok := by
  rw [hview]
  by_cases hec : e = c
  · rw [hec, Function.update_self]
    exact hv
  · rw [Function.update_of_ne hec]
    exact h.view e

theorem FlowInv.range_update {n : Nat} {pc : CustomerPc} (h : FlowInv n s) (hc : c < n)
    (hcust : s'.customer = Function.update s.customer c pc) (e : Nat) (he : n ≤ e) :
    s'.customer e = .arriving := by
  rw [hcust, Function.update_of_ne (Nat.ne_of_gt (hc.trans_le he))]
  exact h.range e he

/-- What the chefs do, when one of them moves. -/
theorem chefs_update (f : ChefPc → Option Nat) (chef : Fin maxChefs → ChefPc) (j : Fin maxChefs)
    (pc : ChefPc) :
    (fun i => f (Function.update chef j pc i)) = Function.update (fun i => f (chef i))
    j (f pc) := by
  funext i
  by_cases hij : i = j
  · rw [hij, Function.update_self, Function.update_self]
  · rw [Function.update_of_ne hij, Function.update_of_ne hij]

/-- A chef moves without a change of its job of one kind. -/
theorem chefs_same {f : ChefPc → Option Nat} {pc : ChefPc} (h : f pc = f (s.chef j)) :
    (fun i => f (Function.update s.chef j pc i)) = fun i => f (s.chef i) := by
  rw [chefs_update, h]
  exact Function.update_eq_self j _

theorem ChefPc.not_busy {pc : ChefPc} (h : pc.busy = false) : pc.bakesFor = none ∧
    pc.acceptsFor = none := by
  cases pc <;> first
  | exact ⟨rfl, rfl⟩
  | cases h

theorem FlowInv.pay {n : Nat} {waits : Thread → Option Cond} (h : FlowInv n s)
    (hle : s.waitingPayment.head ≤ s.waitingPayment.tail) (hc : c < n)
    (hpc : s.customer c = .waitingCake) (hready : s.readyToPay c = true) :
    FlowInv n { s with
      waitingPayment := s.waitingPayment.push c
      paid := Function.update s.paid c true
      paymentTime := Function.update s.paymentTime c s.currentTime
      customer := Function.update s.customer c .waitingDone
      out := s.out ++ [.pays s.currentTime c], waits } := by
  have hpaid : s.paid c = false := by
    by_contra hc
    have := (h.view c).paid.mp (by simpa [State.view] using hc)
    rw [show (s.view c).pc = .waitingCake from hpc] at this
    cases this
  have hdone : s.done c = false := by
    by_contra hc
    have hp := (h.view c).done (by simpa [State.view] using hc)
    rw [show (s.view c).paid = false from hpaid] at hp
    cases hp
  have hcont := ArrayQueue.contents_push hle c
  -- the one who pays is in the queue now, and was not paid before
  have hpay : ∀ d, (Function.update s.paid c true d = true ∧ d ∉
    (s.waitingPayment.push c).contents ∧
      s.done d = false) ↔ s.AtCashier d := by
    intro d
    unfold State.AtCashier
    rw [hcont, List.mem_append, List.mem_singleton]
    by_cases hd : d = c
    · rw [hd, hpaid]
      simp
    · rw [Function.update_of_ne hd]
      simp [hd]
  refine ⟨h.ok_update (c := c) (view_update rfl fun d hd => ?_) ?_, h.range_update hc rfl, h.bakers,
    h.acceptors.congr hpay, fun d hd => ?_, h.cashier.trans (exists_congr fun d => (hpay d).symm),
    fun d e hd he => h.single d e ((hpay d).mp hd) ((hpay e).mp he)⟩
  · simp [State.view, Function.update_of_ne hd]
  · simpa [State.view] using (h.view c).pay hpc hready
  · change d ∈ (s.waitingPayment.push c).contents at hd
    show Function.update s.paid c true d = true ∧ s.done d = false
    rw [hcont] at hd
    rcases List.mem_append.mp hd with hd | hd
    · obtain ⟨hp, hdn⟩ := h.payers d hd
      refine ⟨?_, hdn⟩
      by_cases hdc : d = c
      · rw [hdc, Function.update_self]
      · rw [Function.update_of_ne hdc, hp]
    · rw [List.mem_singleton.mp hd, Function.update_self]
      exact ⟨rfl, hdone⟩

theorem FlowInv.startAccept {n : Nat} {last : Int32} {waits : Thread → Option Cond}
    (h : FlowInv n s) (hnd : s.waitingPayment.contents.Nodup) (hj : s.chef j = .looking last)
    (hlt : s.waitingPayment.head < s.waitingPayment.tail) (hfree : s.cashierFree = true) :
    FlowInv n { s with
      waitingPayment := s.waitingPayment.pop
      cashierFree := false
      chefsIdle := s.chefsIdle - 1
      chef := Function.update s.chef j (.accepting s.waitingPayment.front (s.currentTime + 2) last)
      out := s.out ++ [.accepts s.currentTime j s.waitingPayment.front], waits } := by
  have hcont := ArrayQueue.contents_pop hlt
  rw [hcont, List.nodup_cons] at hnd
  obtain ⟨hpaid, hdone⟩ := h.payers _ (ArrayQueue.front_mem hlt)
  have hnone : ∀ d, ¬ s.AtCashier d := fun d hd => by
    rw [h.cashier.mpr ⟨d, hd⟩] at hfree
    cases hfree
  have hpay : ∀ d, (s.paid d = true ∧ d ∉ s.waitingPayment.pop.contents ∧ s.done d = false) ↔
      s.AtCashier d ∨ d = s.waitingPayment.front := by
    intro d
    constructor
    · rintro ⟨hp, hq, hd⟩
      by_cases hdf : d = s.waitingPayment.front
      · exact Or.inr hdf
      · refine Or.inl ⟨hp, fun hmem => ?_, hd⟩
        rw [hcont] at hmem
        exact hq ((List.mem_cons.mp hmem).resolve_left hdf)
    · rintro (hd | rfl)
      · exact absurd hd (hnone d)
      · exact ⟨hpaid, hnd.1, hdone⟩
  refine ⟨h.view, h.range, ?_, ?_, fun d hd => h.payers d ?_, ?_, fun d e hd he => ?_⟩
  · show Assigned (fun i => (Function.update s.chef j _ i).bakesFor) s.InOven
    rw [chefs_same (by rw [hj]; rfl)]
    exact h.bakers
  · show Assigned (fun i => (Function.update s.chef j _ i).acceptsFor) _
    rw [chefs_update ChefPc.acceptsFor]
    exact (h.acceptors.start (by rw [hj]; rfl) (hnone _)).congr hpay
  · rw [hcont]
    exact List.mem_cons_of_mem _ hd
  · exact ⟨fun _ => ⟨_, (hpay _).mpr (Or.inr rfl)⟩, fun _ => rfl⟩
  · rw [((hpay d).mp hd).resolve_left (hnone d), ((hpay e).mp he).resolve_left (hnone e)]

theorem FlowInv.endAccept {n idx : Nat} {doneTime last : Int32} {waits : Thread → Option Cond}
    (h : FlowInv n s) (hj : s.chef j = .accepting idx doneTime last) :
    FlowInv n { s with
      done := Function.update s.done idx true
      cashierFree := true
      chefsIdle := s.chefsIdle + 1
      chef := Function.update s.chef j (.looking last), waits } := by
  have hat : s.AtCashier idx := h.acceptors.busy_of
    (show (s.chef j).acceptsFor = some idx by rw [hj]; rfl)
  have hpay : ∀ d, (s.paid d = true ∧ d ∉ s.waitingPayment.contents ∧
      Function.update s.done idx true d = false) ↔ s.AtCashier d ∧ d ≠ idx := by
    intro d
    unfold State.AtCashier
    by_cases hd : d = idx
    · rw [hd, Function.update_self]
      simp
    · rw [Function.update_of_ne hd]
      simp [hd]
  have hnone : ∀ d, ¬ (s.AtCashier d ∧ d ≠ idx) := fun d hd => hd.2 (h.single d idx hd.1 hat)
  refine ⟨h.ok_update (c := idx) (view_update rfl fun d hd => ?_) ?_, h.range, ?_, ?_,
    fun d hd => ?_, ?_, fun d e hd _ => absurd ((hpay d).mp hd) (hnone d)⟩
  · simp [State.view, Function.update_of_ne hd]
  · simpa [State.view] using (h.view idx).acceptDone hat.1
  · show Assigned (fun i => (Function.update s.chef j _ i).bakesFor) s.InOven
    rw [chefs_same (by rw [hj]; rfl)]
    exact h.bakers
  · show Assigned (fun i => (Function.update s.chef j _ i).acceptsFor) _
    rw [chefs_update ChefPc.acceptsFor]
    exact (h.acceptors.stop (show (s.chef j).acceptsFor = some idx by rw [hj]; rfl)).congr hpay
  · obtain ⟨hp, hdn⟩ := h.payers d hd
    have hne : d ≠ idx := fun heq => hat.2.1 (heq ▸ hd)
    exact ⟨hp, (Function.update_of_ne hne ..).trans hdn⟩
  · constructor
    · rintro ⟨⟩
    · rintro ⟨d, hd⟩
      exact absurd ((hpay d).mp hd) (hnone d)

theorem FlowInv.startBake {n idx : Nat} {last : Int32} {waits : Thread → Option Cond}
    {sofa : ArrayQueue Nat} (h : FlowInv n s) (hj : s.chef j = .looking last)
    (hwants : s.wants idx = true) :
    FlowInv n { s with
      onSofa := sofa
      ovensUsed := s.ovensUsed + 1
      chefsIdle := s.chefsIdle - 1
      baking := Function.update s.baking idx true
      chef := Function.update s.chef j (.baking idx (s.currentTime + 2) last)
      out := s.out ++ [.bakes s.currentTime j idx], waits } := by
  simp only [State.wants, Bool.and_eq_true, Bool.not_eq_true'] at hwants
  obtain ⟨⟨⟨hreq, hbaking⟩, hready⟩, -⟩ := hwants
  have hoven : ∀ d, (Function.update s.baking idx true d = true ∧ s.readyToPay d = false) ↔
      s.InOven d ∨ d = idx := by
    intro d
    unfold State.InOven
    by_cases hd : d = idx
    · rw [hd, Function.update_self, hready]
      simp
    · rw [Function.update_of_ne hd]
      simp [hd]
  refine ⟨h.ok_update (c := idx) (view_update rfl fun d hd => ?_) ?_, h.range, ?_, ?_,
    h.payers, h.cashier, h.single⟩
  · simp [State.view, Function.update_of_ne hd]
  · simpa [State.view] using (h.view idx).bake hreq
  · show Assigned (fun i => (Function.update s.chef j _ i).bakesFor) _
    rw [chefs_update ChefPc.bakesFor]
    refine (h.bakers.start (by rw [hj]; rfl) fun hc => ?_).congr hoven
    rw [hc.1] at hbaking
    cases hbaking
  · show Assigned (fun i => (Function.update s.chef j _ i).acceptsFor) s.AtCashier
    rw [chefs_same (by rw [hj]; rfl)]
    exact h.acceptors

theorem FlowInv.endBake {n idx : Nat} {bakeDone last : Int32} {waits : Thread → Option Cond}
    (h : FlowInv n s) (hj : s.chef j = .baking idx bakeDone last) :
    FlowInv n { s with
      readyToPay := Function.update s.readyToPay idx true
      ovensUsed := s.ovensUsed - 1
      chefsIdle := s.chefsIdle + 1
      chef := Function.update s.chef j (.looking last), waits } := by
  have hin : s.InOven idx := h.bakers.busy_of (show (s.chef j).bakesFor = some idx by rw [hj]; rfl)
  have hoven : ∀ d, (s.baking d = true ∧ Function.update s.readyToPay idx true d = false) ↔
      s.InOven d ∧ d ≠ idx := by
    intro d
    unfold State.InOven
    by_cases hd : d = idx
    · rw [hd, Function.update_self]
      simp
    · rw [Function.update_of_ne hd]
      simp [hd]
  refine ⟨h.ok_update (c := idx) (view_update rfl fun d hd => ?_) ?_, h.range, ?_, ?_,
    h.payers, h.cashier, h.single⟩
  · simp [State.view, Function.update_of_ne hd]
  · simpa [State.view] using (h.view idx).bakeDone hin.1
  · show Assigned (fun i => (Function.update s.chef j _ i).bakesFor) _
    rw [chefs_update ChefPc.bakesFor]
    exact (h.bakers.stop (show (s.chef j).bakesFor = some idx by rw [hj]; rfl)).congr hoven
  · show Assigned (fun i => (Function.update s.chef j _ i).acceptsFor) s.AtCashier
    rw [chefs_same (by rw [hj]; rfl)]
    exact h.acceptors

/-- **Every change keeps the invariant of the control points**, as long as there is room for a
customer that arrives. -/
theorem FlowInv.change (h : FlowInv input.length s) (hinv : Inv s)
    (hroom : ∀ c, c < input.length → s.customer c = .arriving →
      s.customersInside < (maxCustomers : Int))
    (hch : Change input fits s s') : FlowInv input.length s' := by
  have hknown : ∀ {c : Nat} {ci : CustomerInput}, input[c]? = some ci → c < input.length :=
    fun hci =>
    (List.getElem?_eq_some_iff.mp hci).1
  cases hch with
  | pause | tick | setTimer | setMain | endMain =>
    exact h.of_view h.view h.range rfl rfl rfl rfl rfl rfl rfl
  | refuse known arriving full =>
    exact absurd (hroom _ (hknown known) arriving) (Int.not_lt.mpr full)
  | enter known arriving arrived sum =>
    rename_i c ci waits
    refine h.of_view (h.ok_update (c := c) (view_update rfl fun d hd => ?_) ?_)
      (h.range_update (hknown known) rfl) rfl rfl rfl rfl rfl rfl rfl
    · simp [State.view, Function.update_of_ne hd]
    · simpa [State.view] using (h.view c).enter arriving
  | sit known entering elapsed room sum =>
    rename_i c enterDone waits
    refine h.of_view (h.ok_update (c := c) (view_update rfl fun d hd => ?_) ?_)
      (h.range_update known rfl) rfl rfl rfl rfl rfl rfl rfl
    · simp [State.view, Function.update_of_ne hd]
    · simpa [State.view] using (h.view c).sit (Or.inl ⟨_, entering⟩)
  | stand known entering elapsed full =>
    rename_i c enterDone waits
    refine h.of_view (h.ok_update (c := c) (view_update rfl fun d hd => ?_) ?_)
      (h.range_update known rfl) rfl rfl rfl rfl rfl rfl rfl
    · simp [State.view, Function.update_of_ne hd]
    · simpa [State.view] using (h.view c).stand entering
  | sitDown known standing seated sum =>
    rename_i c waits
    refine h.of_view (h.ok_update (c := c) (view_update rfl fun d hd => ?_) ?_)
      (h.range_update known rfl) rfl rfl rfl rfl rfl rfl rfl
    · simp [State.view, Function.update_of_ne hd]
    · simpa [State.view, seated] using (h.view c).sit (Or.inr standing)
  | request known sitting elapsed =>
    rename_i c sitDone waits
    refine h.of_view (h.ok_update (c := c) (view_update rfl fun d hd => ?_) ?_)
      (h.range_update known rfl) rfl rfl rfl rfl rfl rfl rfl
    · simp [State.view, Function.update_of_ne hd]
    · simpa [State.view] using (h.view c).request sitting
  | pay known waiting ready => exact h.pay hinv.pay.le known waiting ready
  | leave known waiting done nobody last =>
    rename_i c waits ended
    refine h.of_view (h.ok_update (c := c) (view_update rfl fun d hd => ?_) ?_)
      (h.range_update known rfl) rfl rfl rfl rfl rfl rfl rfl
    · simp [State.view, Function.update_of_ne hd]
    · simpa [State.view] using (h.view c).leave waiting done
  | leaveSeat known waiting done stands last =>
    rename_i c waits ended
    -- the front of the queue stands, so it is not the customer that leaves
    obtain ⟨hst, -⟩ := hinv.sofa.standing_mem _ (ArrayQueue.front_mem stands)
    have hne : c ≠ s.standing.front := by
      rintro rfl
      rw [hst] at waiting
      cases waiting
    have hseat : FlowInv input.length
        { s with seated := Function.update s.seated s.standing.front true } := by
      refine h.of_view (h.ok_update (c := s.standing.front) (view_update rfl fun d hd => ?_) ?_)
        h.range rfl rfl rfl rfl rfl rfl rfl
      · simp [State.view, Function.update_of_ne hd]
      · simpa [State.view] using (h.view _).seat hst
    refine hseat.of_view (hseat.ok_update (c := c) (view_update rfl fun d hd => ?_) ?_)
      (h.range_update known rfl) rfl rfl rfl rfl rfl rfl rfl
    · simp [State.view, Function.update_of_ne hd]
    · simpa [State.view] using (hseat.view c).leave waiting done
  | chefIdle before after =>
    rename_i j pc waits
    obtain ⟨hb, ha⟩ := ChefPc.not_busy before
    obtain ⟨hb', ha'⟩ := ChefPc.not_busy after
    refine ⟨h.view, h.range, ?_, ?_, h.payers, h.cashier, h.single⟩
    · show Assigned (fun i => (Function.update s.chef j _ i).bakesFor) s.InOven
      rw [chefs_same (by rw [hb, hb'])]
      exact h.bakers
    · show Assigned (fun i => (Function.update s.chef j _ i).acceptsFor) s.AtCashier
      rw [chefs_same (by rw [ha, ha'])]
      exact h.acceptors
  | startAccept looking queue free earlier sum =>
    exact h.startAccept hinv.pay.nodup looking queue free
  | endAccept accepting elapsed => exact h.endAccept accepting
  | startBake looking noPayment found sum =>
    obtain ⟨-, -, hwants⟩ := ArrayQueue.findIdx_eq_some found
    exact h.startBake looking hwants
  | endBake baking elapsed => exact h.endBake baking

end Bakery
