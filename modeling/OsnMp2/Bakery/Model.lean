import Mathlib.Algebra.GroupWithZero.Nat
import Mathlib.Data.Int.Basic
import OsnMp2.Lib.ArrayQueue
import OsnMp2.Lib.Runs

/-!
# The bakery simulation

The threads of `bakery.c` as a transition system. All shared state is protected by one mutex, so the
code that a thread runs between two points at which it gives the mutex up (a wait on a condition
variable, or an unlock) is one step; the threads take their steps in any order. A thread that waits
is blocked until its condition variable is signalled, or it wakes up spuriously; it then tests the
condition of its loop again.

The times are `int`s of 32 bits, and a sum that overflows wraps around. A printed line has its time,
what is done, and the index that the thread of its customer has in `customers`, since the input may
give one number to several customers.

## Main definitions

* `State`: the shared variables, with the control points of the threads and the output
* `customerStep`, `chefStep`, `timerStep`, `mainStep`: the steps of the threads
* `Step`, `Reachable`: the transition system and its reachable states
-/

namespace Bakery

/-- `MAX_CUSTOMERS`. -/
abbrev maxCustomers : Nat := 25

/-- `MAX_CHEFS`. -/
abbrev maxChefs : Nat := 4

instance : NeZero maxChefs := ⟨Nat.succ_ne_zero 3⟩

/-- `MAX_SOFA`. -/
abbrev maxSofa : Nat := 4

/-- `MAX_OVENS`. -/
abbrev maxOvens : Nat := 4

/-- `CustomerInput`. -/
structure CustomerInput where
  id : Int32
  arrivalTime : Int32
deriving DecidableEq, Repr

/-! ## Threads and their control points -/

/-- The threads: the timer, the chefs, the customers by index, and `main`. -/
inductive Thread
  | timer
  | chef (j : Fin maxChefs)
  | customer (c : Nat)
  | main
deriving DecidableEq

/-- The condition variables. -/
inductive Cond
  | timeTick
  | sofaAvailable
  | workAvailable
deriving DecidableEq

/-- Where a customer gives up the mutex: the loops in which it waits, in order. -/
inductive CustomerPc
  | arriving
  | entering (enterDone : Int32)
  | standing
  | sitting (sitDone : Int32)
  | waitingCake
  | waitingDone
  | returned
deriving DecidableEq

/-- Where a chef gives up the mutex. `lastAction` is `my_last_action_time`. -/
inductive ChefPc
  | start
  | looking (lastAction : Int32)
  | accepting (idx : Nat) (doneTime lastAction : Int32)
  | baking (idx : Nat) (bakeDone lastAction : Int32)
  | returned
deriving DecidableEq

/-- Where the timer gives up the mutex. -/
inductive TimerPc
  | start
  | sleeping
  | returned
deriving DecidableEq

/-- `main`, from the creation of the threads on. -/
inductive MainPc
  | joinCustomers
  | joinRest
  | returned
deriving DecidableEq

/-- A printed line, with the index of its customer. -/
inductive Line
  | enters (time : Int32) (c : Nat)
  | sits (time : Int32) (c : Nat)
  | requests (time : Int32) (c : Nat)
  | bakes (time : Int32) (chef : Fin maxChefs) (c : Nat)
  | pays (time : Int32) (c : Nat)
  | accepts (time : Int32) (chef : Fin maxChefs) (c : Nat)
  | leaves (time : Int32) (c : Nat)
deriving DecidableEq

/-- The shared variables of `bakery.c`, with the control points of its threads, the condition
variables they are blocked on and the output. -/
structure State where
  currentTime : Int32
  customersInside : Int := 0
  customersFinished : Int := 0
  sofaCount : Int := 0
  ovensUsed : Int := 0
  cashierFree : Bool := true
  chefsIdle : Int := maxChefs
  standing : ArrayQueue Nat := { data := fun _ => 0 }
  onSofa : ArrayQueue Nat := { data := fun _ => 0 }
  waitingPayment : ArrayQueue Nat := { data := fun _ => 0 }
  entered : Nat → Bool := fun _ => false
  seated : Nat → Bool := fun _ => false
  requested : Nat → Bool := fun _ => false
  requestTime : Nat → Int32 := fun _ => 0
  baking : Nat → Bool := fun _ => false
  readyToPay : Nat → Bool := fun _ => false
  paid : Nat → Bool := fun _ => false
  paymentTime : Nat → Int32 := fun _ => 0
  done : Nat → Bool := fun _ => false
  simulationDone : Bool := false
  customer : Nat → CustomerPc := fun _ => .arriving
  chef : Fin maxChefs → ChefPc := fun _ => .start
  timer : TimerPc := .start
  main : MainPc := .joinCustomers
  waits : Thread → Option Cond := fun _ => none
  out : List Line := []

/-- The state when `main` has read its input and creates the threads. -/
def init (input : List CustomerInput) : State :=
  { currentTime := (input.head?.map (·.arrivalTime)).getD 0 }

/-! ## Condition variables and output -/

/-- `pthread_cond_broadcast`. -/
def State.broadcast (s : State) (c : Cond) : State :=
  { s with waits := fun t => if s.waits t = some c then none else s.waits t }

/-- The thread `t` waits on `c` in a loop, as long as the condition of the loop holds. -/
def State.waitWhile (s : State) (t : Thread) (c : Cond) (again : Bool) : State :=
  { s with waits := Function.update s.waits t (if again then some c else none) }

/-- `safe_print`. -/
def State.print (s : State) (l : Line) : State := { s with out := s.out ++ [l] }

/-! ## Customers -/

/-- The customer `c` goes on to the control point `pc`. -/
def State.setCustomer (s : State) (c : Nat) (pc : CustomerPc) : State :=
  { s with customer := Function.update s.customer c pc }

/-- A customer that has arrived enters, unless the bakery is full. -/
def enter (s : State) (c : Nat) : State :=
  -- A customer that is turned away returns, and `customers_finished` does not count it.
  if (maxCustomers : Int) ≤ s.customersInside then s.setCustomer c .returned
  else
    let s := { s with customersInside := s.customersInside + 1
                      entered := Function.update s.entered c true }
    -- `enter_done` is computed in `int`, and so is the test.
    ((s.print (.enters s.currentTime c)).setCustomer c (.entering (s.currentTime + 1))).waitWhile
      (.customer c) .timeTick (s.currentTime < s.currentTime + 1)

/-- The customer sits down: it waits until that is done. -/
def sitDown (s : State) (c : Nat) : State :=
  ((s.print (.sits s.currentTime c)).setCustomer c (.sitting (s.currentTime + 1))).waitWhile
    (.customer c) .timeTick (s.currentTime < s.currentTime + 1)

/-- A customer that has entered takes a seat, or stands and waits for one. -/
def trySit (s : State) (c : Nat) : State :=
  if s.sofaCount < (maxSofa : Int) then
    sitDown { s with sofaCount := s.sofaCount + 1
                     onSofa := s.onSofa.push c
                     seated := Function.update s.seated c true } c
  -- The seat is given by the customer who leaves; `on_sofa` has the customer from then on.
  else
    (({ s with standing := s.standing.push c } : State).setCustomer c .standing).waitWhile
      (.customer c) .sofaAvailable !s.seated c

/-- A customer that sits requests a cake. -/
def request (s : State) (c : Nat) : State :=
  let s := { s with requested := Function.update s.requested c true
                    requestTime := Function.update s.requestTime c s.currentTime }
  ((s.print (.requests s.currentTime c)).setCustomer c .waitingCake).waitWhile
    (.customer c) .timeTick !s.readyToPay c

/-- A customer with a cake pays. -/
def pay (s : State) (c : Nat) : State :=
  let s := s.print (.pays s.currentTime c)
  (({ s with waitingPayment := s.waitingPayment.push c
             paid := Function.update s.paid c true
             paymentTime := Function.update s.paymentTime c s.currentTime } : State).setCustomer c
    .waitingDone).waitWhile (.customer c) .timeTick !s.done c

/-- A customer gives up its place and its seat. -/
def goOut (s : State) (c : Nat) : State :=
  { s.print (.leaves s.currentTime c) with
    -- All three counters change before anybody else runs.
    customersInside := s.customersInside - 1
    customersFinished := s.customersFinished + 1
    sofaCount := s.sofaCount - 1 }

/-- The first standing customer gets the seat that is free now, if there is one. -/
def seatNext (s : State) : State :=
  if s.standing.head < s.standing.tail then
    ({ s with standing := s.standing.pop
              sofaCount := s.sofaCount + 1
              onSofa := s.onSofa.push s.standing.front
              seated := Function.update s.seated s.standing.front true } :
                State).broadcast .sofaAvailable
  else s

/-- The last of the `n` customers ends the simulation. -/
def endIfLast (n : Nat) (s : State) : State :=
  if (n : Int) ≤ s.customersFinished then
    -- The chefs that wait for the time are not woken up by this.
    ({ s with simulationDone := true } : State).broadcast .workAvailable
  else s

/-- A customer whose payment was accepted leaves, out of `n` customers. -/
def leave (n : Nat) (s : State) (c : Nat) : State :=
  (endIfLast n (seatNext (goOut s c))).setCustomer c .returned

/-- **A step of the customer** `c` in `customer_thread`: the code up to its next wait. -/
def customerStep (input : List CustomerInput) (c : Nat) (s : State) : Option State :=
  match input[c]? with
  | none => none
  | some ci =>
    match s.customer c with
    -- Each case tests the loop that the customer has waited in, and goes on behind it.
    | .arriving =>
      if s.currentTime < ci.arrivalTime then some (s.waitWhile (.customer c) .timeTick true)
      else some (enter s c)
    | .entering enterDone =>
      if s.currentTime < enterDone then some (s.waitWhile (.customer c) .timeTick true)
      else some (trySit s c)
    | .standing =>
      if !s.seated c then some (s.waitWhile (.customer c) .sofaAvailable true)
      else some (sitDown s c)
    | .sitting sitDone =>
      if s.currentTime < sitDone then some (s.waitWhile (.customer c) .timeTick true)
      else some (request s c)
    | .waitingCake =>
      if !s.readyToPay c then some (s.waitWhile (.customer c) .timeTick true)
      else some (pay s c)
    | .waitingDone =>
      if !s.done c then some (s.waitWhile (.customer c) .timeTick true)
      else some (leave input.length s c)
    | .returned => none

/-! ## Chefs -/

/-- The chef `j` goes on to the control point `pc`. -/
def State.setChef (s : State) (j : Fin maxChefs) (pc : ChefPc) : State :=
  { s with chef := Function.update s.chef j pc }

/-- There is a payment that the chef may accept: it was made before the current time. -/
def State.canAccept (s : State) : Bool :=
  -- The array is read only where the queue is not empty.
  s.waitingPayment.head < s.waitingPayment.tail && s.cashierFree && decide (0 < s.chefsIdle) &&
    decide (s.paymentTime s.waitingPayment.front < s.currentTime)

/-- A chef starts to accept the first payment. -/
def startAccept (s : State) (j : Fin maxChefs) (lastAction : Int32) : State :=
  let idx := s.waitingPayment.front
  let s := { s with waitingPayment := s.waitingPayment.pop
                    cashierFree := false
                    chefsIdle := s.chefsIdle - 1 }
  ((s.print (.accepts s.currentTime j idx)).setChef j
    (.accepting idx (s.currentTime + 2) lastAction)).waitWhile (.chef j) .timeTick
    (s.currentTime < s.currentTime + 2)

/-- A chef is done with a payment, and unlocks the mutex. -/
def endAccept (s : State) (j : Fin maxChefs) (idx : Nat) (lastAction : Int32) : State :=
  -- `my_last_action_time` is not updated: work was done.
  (({ s with done := Function.update s.done idx true
             cashierFree := true
             chefsIdle := s.chefsIdle + 1 } :
               State).broadcast .timeTick).setChef j (.looking lastAction)

/-- The request of a customer may be served: it was made before the current time. -/
def State.wants (s : State) (idx : Nat) : Bool :=
  s.requested idx && !s.baking idx && !s.readyToPay idx &&
    decide (s.requestTime idx < s.currentTime)

/-- A chef starts to bake for the customer `idx`. -/
def startBake (s : State) (j : Fin maxChefs) (idx : Nat) (lastAction : Int32) : State :=
  let s := { s with ovensUsed := s.ovensUsed + 1
                    chefsIdle := s.chefsIdle - 1
                    baking := Function.update s.baking idx true }
  ((s.print (.bakes s.currentTime j idx)).setChef j
    (.baking idx (s.currentTime + 2) lastAction)).waitWhile (.chef j) .timeTick
    (s.currentTime < s.currentTime + 2)

/-- A chef is done with a cake, and unlocks the mutex. -/
def endBake (s : State) (j : Fin maxChefs) (idx : Nat) (lastAction : Int32) : State :=
  (({ s with readyToPay := Function.update s.readyToPay idx true
             ovensUsed := s.ovensUsed - 1
             chefsIdle := s.chefsIdle + 1 } :
               State).broadcast .timeTick).setChef j (.looking lastAction)

/-- A chef that has no payment to accept looks for a request: the first one that it may serve is
taken off the queue, and then it is tested whether an oven and a chef are free. -/
def lookForRequest (s : State) (j : Fin maxChefs) (lastAction : Int32) : State :=
  match s.onSofa.findIdx s.wants with
  | none => s.setChef j (.looking s.currentTime)
  | some i =>
    let idx := s.onSofa.data i
    -- The customer is off the queue from here on, whatever the next test says.
    let s := { s with onSofa := s.onSofa.removeAt i }
    if s.ovensUsed < (maxOvens : Int) ∧ 0 < s.chefsIdle then startBake s j idx lastAction
    -- No oven or no chef: the request would be lost.
    else s.setChef j (.looking s.currentTime)

/-- **A step of the chef** `j` in `chef_thread`: the code up to its next wait or unlock. -/
def chefStep (n : Nat) (j : Fin maxChefs) (s : State) : Option State :=
  match s.chef j with
  | .start => some (s.setChef j (.looking (s.currentTime - 1)))
  | .looking lastAction =>
    -- The chef waits for the next second.
    if s.currentTime ≤ lastAction ∧ s.simulationDone = false then
      some (s.waitWhile (.chef j) .timeTick true)
    else if s.simulationDone = true ∧ (n : Int) ≤ s.customersFinished then
      some (s.setChef j .returned)
    -- Payments come first.
    else if s.canAccept then some (startAccept s j lastAction)
    else some (lookForRequest s j lastAction)
  | .accepting idx doneTime lastAction =>
    if s.currentTime < doneTime then some (s.waitWhile (.chef j) .timeTick true)
    else some (endAccept s j idx lastAction)
  | .baking idx bakeDone lastAction =>
    if s.currentTime < bakeDone then some (s.waitWhile (.chef j) .timeTick true)
    else some (endBake s j idx lastAction)
  | .returned => none

/-! ## The timer and `main` -/

/-- The test of the loop of `timer_thread`. -/
def timerLoop (n : Nat) (s : State) : State :=
  { s with timer := if s.customersFinished < n then .sleeping else .returned }

/-- **A step of the timer**: to its first sleep, or one second and the test of its loop. -/
def timerStep (n : Nat) (s : State) : Option State :=
  match s.timer with
  | .start => some (timerLoop n s)
  | .sleeping =>
    -- `sleep(1)` without the mutex, then the tick.
    some (timerLoop n ((({ s with currentTime := s.currentTime + 1 } : State).broadcast
      .timeTick).broadcast .workAvailable))
  | .returned => none

/-- **A step of `main`**, which joins the customers, tells the chefs to stop and joins the rest. -/
def mainStep (n : Nat) (s : State) : Option State :=
  match s.main with
  | .joinCustomers =>
    if (List.range n).all fun c => s.customer c = .returned then
      some { ({ s with simulationDone := true } : State).broadcast .workAvailable with
        main := .joinRest }
    else none
  | .joinRest =>
    -- The chefs and the timer are joined.
    if (∀ j, s.chef j = .returned) ∧ s.timer = .returned then some { s with main := .returned }
    else none
  | .returned => none

/-! ## The system -/

/-- A step of the thread `t`. -/
def threadStep (input : List CustomerInput) (s : State) : Thread → Option State
  | .timer => timerStep input.length s
  | .chef j => chefStep input.length j s
  | .customer c => customerStep input c s
  | .main => mainStep input.length s

/-- The events: a thread that is not blocked runs, or a blocked one wakes up spuriously. -/
inductive Event
  | run (t : Thread)
  | wake (t : Thread)
deriving DecidableEq

/-- **The transition relation.** -/
inductive Step (input : List CustomerInput) (s : State) : Event → State → Prop
  | run {t : Thread} {s' : State} (ready : s.waits t = none)
      (step : threadStep input s t = some s') : Step input s (.run t) s'
  | wake {t : Thread} {c : Cond} (blocked : s.waits t = some c) :
      Step input s (.wake t) { s with waits := Function.update s.waits t none }

/-- **Reachable states**, for an input of at most 25 customers. -/
def Reachable (input : List CustomerInput) (s : State) : Prop :=
  -- More lines than this do not fit into `customers[]`.
  input.length ≤ maxCustomers ∧ ∃ es, Run (Step input) (init input) es s

end Bakery
