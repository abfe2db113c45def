import OsnMp2.Bakery.Shutdown

/-!
# The input of the bakery

How `main` reads its input, and which entries of its arrays the program uses, there and in the
simulation. The arrays have 25 entries. The loop of `main` stores a customer for each line that it
can read one from, and does not look at the number that it has stored; the test of the capacity is
on the customers that are inside, and it comes too late for the arrays.

With at most 25 customers everything is in bounds and nobody is turned away. With more of them the
26th is stored behind the end of `customers`.

## Main definitions

* `fgets`, `scanInt`, `scanWord`, `scanCustomer`: how a line is read
* `Main`, `readInput`: what `main` has when it creates the threads
* `accesses`: the entries that a step of a thread uses
* `Handled`: an input is handled in bounds, and to its end

## Main results

* `accesses_lt`: the entries that a step uses are those of customers
* `handled_iff`: an input is handled if and only if it has at most 25 customers
-/

namespace Bakery

/-! ## Reading a line -/

/-- The characters up to the end of the line, at most `n`, and the rest. -/
def takeLine : Nat → List Char → List Char × List Char
  | 0, cs => ([], cs)
  | _ + 1, [] => ([], [])
  | n + 1, c :: cs => if c = '\n' then ([c], cs) else ((c :: (takeLine n cs).1), (takeLine n cs).2)

/-- `fgets(line, size, stdin)`, with what is left of the input. -/
def fgets (size : Nat) (stdin : List Char) : Option (List Char × List Char) :=
  if stdin.isEmpty then none else some (takeLine (size - 1) stdin)

/-- `sizeof(line)`. -/
abbrev lineSize : Nat := 256

/-- The lines that `fgets` returns, one call after the other. -/
def fgetsLines : Nat → List Char → List (List Char)
  | 0, _ => []
  | fuel + 1, stdin =>
    match fgets lineSize stdin with
    | none => []
    | some (line, rest) => line :: fgetsLines fuel rest

/-- The lines of an input. -/
def lines (stdin : List Char) : List (List Char) := fgetsLines stdin.length stdin

/-- `isspace`. -/
def isSpace (c : Char) : Bool := c = ' ' || (9 ≤ c.toNat && c.toNat ≤ 13)

/-- `isdigit`. -/
def isDigit (c : Char) : Bool := 48 ≤ c.toNat && c.toNat ≤ 57

/-- The value of a digit string. -/
def digitsValue (s : List Char) : Nat := s.foldl (fun n c => 10 * n + (c.toNat - 48)) 0

/-- What `%d` stores: the number, in the range of a `long`, cut to an `int`. -/
def storeInt (negative : Bool) (n : Nat) : Int32 :=
  Int32.ofInt (if negative then max (-2 ^ 63) (-n) else min (2 ^ 63 - 1) n)

/-- A sign, if there is one. -/
def scanSign : List Char → Bool × List Char
  | '-' :: s => (true, s)
  | '+' :: s => (false, s)
  | s => (false, s)

/-- `%d`, with what is left of the text. -/
def scanInt (s : List Char) : Option (Int32 × List Char) :=
  let signed := scanSign (s.dropWhile isSpace)
  let digits := signed.2.takeWhile isDigit
  if digits.isEmpty then none
  else some (storeInt signed.1 (digitsValue digits), signed.2.drop digits.length)

/-- `%31s`, with what is left of the text. -/
def scanWord (s : List Char) : Option (List Char × List Char) :=
  let s := s.dropWhile isSpace
  let word := (s.take 31).takeWhile fun c => !isSpace c
  if word.isEmpty then none else some (word, s.drop word.length)

/-- The string in a buffer. -/
def cString (line : List Char) : List Char := line.takeWhile fun c => c ≠ Char.ofNat 0

/-- `sscanf(line, "%d %31s %d", &ts, word, &id)`, when it returns 3. -/
def scanCustomer (line : List Char) : Option CustomerInput :=
  (scanInt (cString line)).bind fun ts =>
    (scanWord ts.2).bind fun word => (scanInt word.2).map fun id =>
      { id := id.1, arrivalTime := ts.1 }

/-- `strncmp(line, "<EOF>", 5) == 0`. -/
def isEof (line : List Char) : Bool := ['<', 'E', 'O', 'F', '>'].isPrefixOf (cString line)

/-! ## The entries of the arrays -/

/-- The arrays with `MAX_CUSTOMERS` entries. -/
inductive Arr
  | customers
  | custThreads
  | standing
  | onSofa
  | waitingPayment
  | entered
  | seated
  | requested
  | requestTime
  | baking
  | readyToPay
  | paid
  | paymentTime
  | done
deriving DecidableEq

/-- The use of an entry of an array. -/
abbrev Access := Arr × Nat

/-- The variables of `main` while it reads, with the entries that it has stored. -/
structure Main where
  customers : Nat → CustomerInput := fun _ => { id := 0, arrivalTime := 0 }
  numCustomers : Nat := 0
  startTime : Int32 := 0
  currentTime : Int32 := 0
  stores : List Access := []

/-- The first customer sets the clock. -/
def Main.setClock (m : Main) (ts : Int32) : Main :=
  if m.numCustomers = 0 then { m with startTime := ts, currentTime := ts } else m

/-- A customer is stored. -/
def Main.store (m : Main) (ci : CustomerInput) : Main :=
  { m.setClock ci.arrivalTime with
    customers := Function.update m.customers m.numCustomers ci
    numCustomers := m.numCustomers + 1
    stores := m.stores ++ [(.customers, m.numCustomers)] }

/-- The body of the loop, for a line that does not end the input. -/
def Main.readLine (m : Main) (line : List Char) : Main :=
  match scanCustomer line with
  | none => m
  | some ci => m.store ci

/-- The loop of `main` over the lines. -/
def readLoop : List (List Char) → Main → Main
  | [], m => m
  | line :: rest, m => if isEof line then m else readLoop rest (m.readLine line)

/-- `main`, up to the creation of the threads. -/
def readInput (stdin : List Char) : Main := readLoop (lines stdin) {}

/-- The customers that the simulation is about. -/
def Main.given (m : Main) : List CustomerInput := (List.range m.numCustomers).map m.customers

/-- The entries that `main` uses up to the creation of the threads. -/
def Main.accesses (m : Main) :
    List Access := m.stores ++ (List.range m.numCustomers).map (.custThreads, ·)

/-- The entries that give the first standing customer its seat. -/
def seatAccesses (s : State) : List Access :=
  if s.standing.head < s.standing.tail then
    [(.standing, s.standing.head), (.onSofa, s.onSofa.tail), (.seated, s.standing.front)]
  else []

/-- The entries that a step of the customer `c` uses, as `customerStep` takes it. -/
def customerAccesses (arrivalTime : Int32) (c : Nat) (s : State) : List Access :=
  match s.customer c with
  | .arriving =>
    if s.currentTime < arrivalTime ∨ (maxCustomers : Int) ≤ s.customersInside then [(.customers, c)]
    else [(.customers, c), (.entered, c)]
  | .entering enterDone =>
    if s.currentTime < enterDone then []
    else if s.sofaCount < (maxSofa : Int) then [(.onSofa, s.onSofa.tail), (.seated, c)]
    else [(.standing, s.standing.tail), (.seated, c)]
  | .standing => [(.seated, c)]
  | .sitting sitDone =>
    if s.currentTime < sitDone then [] else [(.requested, c), (.requestTime, c), (.readyToPay, c)]
  | .waitingCake =>
    if !s.readyToPay c then [(.readyToPay, c)]
    else
      [(.readyToPay, c), (.waitingPayment, s.waitingPayment.tail), (.paid, c), (.paymentTime, c),
        (.done, c)]
  | .waitingDone => if !s.done c then [(.done, c)] else (.done, c) :: seatAccesses s
  | .returned => []

/-- The entries that the test for a payment uses. -/
def paymentAccesses (s : State) : List Access :=
  if s.waitingPayment.head < s.waitingPayment.tail ∧ s.cashierFree = true ∧ 0 < s.chefsIdle then
    [(.waitingPayment, s.waitingPayment.head), (.paymentTime, s.waitingPayment.front)]
  else []

/-- The entries that the test of one place on the sofa uses. -/
def lookAccesses (s : State) (i : Nat) : List Access :=
  [(.onSofa, i), (.requested, s.onSofa.data i), (.baking, s.onSofa.data i),
    (.readyToPay, s.onSofa.data i), (.requestTime, s.onSofa.data i)]

/-- The entries that the search for a request uses: the places up to the one found, those that are
moved down, and those of the customer. -/
def sofaAccesses (s : State) : List Access :=
  match s.onSofa.findIdx s.wants with
  | none => (List.range' s.onSofa.head (s.onSofa.tail - s.onSofa.head)).flatMap (lookAccesses s)
  | some i =>
    (List.range' s.onSofa.head (i + 1 - s.onSofa.head)).flatMap (lookAccesses s) ++
      (List.range' i (s.onSofa.tail - 1 - i)).flatMap (fun k => [(.onSofa, k), (.onSofa, k + 1)]) ++
      [(.baking, s.onSofa.data i), (.customers, s.onSofa.data i)]

/-- The entries that a step of a chef uses, as `chefStep` takes it. -/
def chefAccesses (n : Nat) (j : Fin maxChefs) (s : State) : List Access :=
  match s.chef j with
  | .start => []
  | .looking lastAction =>
    if s.currentTime ≤ lastAction ∧ s.simulationDone = false then []
    else if s.simulationDone = true ∧ (n : Int) ≤ s.customersFinished then []
    else if s.canAccept then paymentAccesses s ++ [(.customers, s.waitingPayment.front)]
    else paymentAccesses s ++ sofaAccesses s
  | .accepting idx doneTime _ => if s.currentTime < doneTime then [] else [(.done, idx)]
  | .baking idx bakeDone _ => if s.currentTime < bakeDone then [] else [(.readyToPay, idx)]
  | .returned => []

/-- **The entries that a step of a thread uses.** -/
def accesses (input : List CustomerInput) (s : State) : Thread → List Access
  | .timer => []
  | .chef j => chefAccesses input.length j s
  | .customer c => ((input[c]?).map fun ci => customerAccesses ci.arrivalTime c s).getD []
  | .main => if s.main = .joinCustomers then (List.range input.length).map (.custThreads, ·) else []

/-! ## The entries are those of customers -/

variable {input : List CustomerInput} {s s' : State} {c : Nat} {j : Fin maxChefs} {a : Access}

/-- The first standing customer is one of the input. -/
theorem BakeryInv.standing_lt (h : BakeryInv input s)
    (hstands : s.standing.head < s.standing.tail) : s.standing.front < input.length := by
  apply h.flow.lt
  rw [(h.inv.sofa.standing_mem _ (ArrayQueue.front_mem hstands)).1]
  rintro ⟨⟩

/-- The first customer that waits for its payment is one of the input. -/
theorem BakeryInv.paying_lt (h : BakeryInv input s)
    (hqueue : s.waitingPayment.head < s.waitingPayment.tail) :
    s.waitingPayment.front < input.length := by
  apply h.flow.lt
  intro hpc
  have hpaid := (h.flow.view _).paid.mp (h.flow.payers _ (ArrayQueue.front_mem hqueue)).1
  rw [show (s.view s.waitingPayment.front).pc = .arriving from hpc] at hpaid
  cases hpaid

/-- A customer that sits is one of the input. -/
theorem BakeryInv.seated_lt (h : BakeryInv input s) (hseated : s.seated c = true) :
    c < input.length := by
  apply h.flow.lt
  intro hpc
  have hearly := (h.flow.view c).seated hseated
  rw [show (s.view c).pc = .arriving from hpc] at hearly
  cases hearly

theorem BakeryInv.sofa_lt (h : BakeryInv input s) {i : Nat} (hi : i < s.onSofa.tail) :
    s.onSofa.data i < input.length := by
  apply h.seated_lt
  refine ((h.inv.sofa.mem_sofa _).mp ?_).1
  rw [ArrayQueue.contents]
  apply List.mem_map_of_mem
  rw [List.mem_range'_1, h.queue.sofa_head]
  omega

theorem BakeryInv.baker_lt (h : BakeryInv input s) (hj : (s.chef j).bakesFor = some c) :
    c < input.length :=
  h.seated_lt (h.inv.sofa.baking_seated c (h.flow.bakers.busy_of hj).1)

theorem BakeryInv.acceptor_lt (h : BakeryInv input s) (hj : (s.chef j).acceptsFor = some c) :
    c < input.length := by
  apply h.flow.lt
  intro hpc
  have hlate := (h.flow.view c).paid.mp (h.flow.acceptors.busy_of hj).1
  rw [show (s.view c).pc = .arriving from hpc] at hlate
  cases hlate

theorem BakeryInv.lookAccesses_lt (h : BakeryInv input s) {i : Nat} (hi : i < s.onSofa.tail)
    (ha : a ∈ lookAccesses s i) : a.2 < input.length := by
  have hdata := h.sofa_lt hi
  have htail := h.sofa_tail
  simp only [lookAccesses, List.mem_cons, List.not_mem_nil, or_false] at ha
  rcases ha with rfl | rfl | rfl | rfl | rfl
  · exact Nat.lt_of_lt_of_le hi htail
  all_goals exact hdata

/-- The place that the search finds is in use. -/
theorem findIdx_lt {i : Nat} (hfound : s.onSofa.findIdx s.wants = some i) : i < s.onSofa.tail := by
  have hmem := List.mem_of_find?_eq_some hfound
  rw [List.mem_range'_1] at hmem
  omega

theorem BakeryInv.sofaAccesses_lt (h : BakeryInv input s) (ha : a ∈ sofaAccesses s) :
    a.2 < input.length := by
  have htail := h.sofa_tail
  unfold sofaAccesses at ha
  cases hfound : s.onSofa.findIdx s.wants with
  | none =>
    rw [hfound] at ha
    obtain ⟨i, hi, ha⟩ := List.mem_flatMap.mp ha
    rw [List.mem_range'_1] at hi
    exact h.lookAccesses_lt (by omega) ha
  | some i =>
    rw [hfound] at ha
    have hi := findIdx_lt hfound
    simp only [List.mem_append, List.mem_flatMap, List.mem_cons, List.not_mem_nil, or_false] at ha
    rcases ha with (⟨k, hk, ha⟩ | ⟨k, hk, ha⟩) | ha
    · rw [List.mem_range'_1] at hk
      exact h.lookAccesses_lt (by omega) ha
    · rw [List.mem_range'_1] at hk
      rcases ha with rfl | rfl
      · show k < _
        omega
      · show k + 1 < _
        omega
    · rcases ha with rfl | rfl
      all_goals exact h.sofa_lt hi

theorem BakeryInv.paymentAccesses_lt (h : BakeryInv input s) (ha : a ∈ paymentAccesses s) :
    a.2 < input.length := by
  unfold paymentAccesses at ha
  split at ha
  · next hcan =>
    have htail := h.paying_tail
    simp only [List.mem_cons, List.not_mem_nil, or_false] at ha
    rcases ha with rfl | rfl
    · exact Nat.lt_of_lt_of_le hcan.1 htail
    · exact h.paying_lt hcan.1
  · cases ha

theorem BakeryInv.chefAccesses_lt (h : BakeryInv input s) (ha : a ∈ chefAccesses input.length j s) :
    a.2 < input.length := by
  unfold chefAccesses at ha
  cases hpc : s.chef j with
  | start | returned =>
    rw [hpc] at ha
    cases ha
  | looking last =>
    rw [hpc] at ha
    dsimp only at ha
    split at ha
    · cases ha
    · split at ha
      · cases ha
      · split at ha
        · next hcan =>
          rcases List.mem_append.mp ha with ha | ha
          · exact h.paymentAccesses_lt ha
          · rw [List.mem_singleton.mp ha]
            simp only [State.canAccept, Bool.and_eq_true, decide_eq_true_eq] at hcan
            exact h.paying_lt hcan.1.1.1
        · rcases List.mem_append.mp ha with ha | ha
          · exact h.paymentAccesses_lt ha
          · exact h.sofaAccesses_lt ha
  | accepting idx doneTime last =>
    rw [hpc] at ha
    dsimp only at ha
    split at ha
    · cases ha
    · rw [List.mem_singleton.mp ha]
      exact h.acceptor_lt (j := j) (by rw [hpc]; rfl)
  | baking idx bakeDone last =>
    rw [hpc] at ha
    dsimp only at ha
    split at ha
    · cases ha
    · rw [List.mem_singleton.mp ha]
      exact h.baker_lt (j := j) (by rw [hpc]; rfl)

/-- The end of the sofa queue after a customer has left. -/
theorem leave_sofa (n : Nat) (hstands : s.standing.head < s.standing.tail) :
    (leave n s c).onSofa.tail = s.onSofa.tail + 1 := by
  have hnext : (seatNext (goOut s c)).onSofa.tail = s.onSofa.tail + 1 := by
    rw [seatNext, if_pos (show (goOut s c).standing.head < (goOut s c).standing.tail from hstands)]
    rfl
  rw [← hnext]
  unfold leave endIfLast
  split <;> rfl

theorem BakeryInv.customerAccesses_lt {ci : CustomerInput} (h : BakeryInv input s)
    (h' : BakeryInv input s') (hci : input[c]? = some ci) (hstep : customerStep input c s = some s')
    (ha : a ∈ customerAccesses ci.arrivalTime c s) : a.2 < input.length := by
  have hc : c < input.length := (List.getElem?_eq_some_iff.mp hci).1
  unfold customerStep at hstep
  rw [hci] at hstep
  dsimp only at hstep
  unfold customerAccesses at ha
  cases hpc : s.customer c with
  | arriving =>
    rw [hpc] at ha
    dsimp only at ha
    split at ha
    · rw [List.mem_singleton.mp ha]
      exact hc
    · simp only [List.mem_cons, List.not_mem_nil, or_false] at ha
      rcases ha with rfl | rfl
      all_goals exact hc
  | entering enterDone =>
    rw [hpc] at ha hstep
    dsimp only at ha hstep
    split at ha
    · cases ha
    · next hlate =>
      rw [if_neg hlate] at hstep
      obtain rfl := Option.some.inj hstep
      -- the entry at the tail is one of the queue after the step
      split at ha
      · next hroom =>
        have htail := h'.sofa_tail
        rw [trySit, if_pos hroom] at htail
        simp only [List.mem_cons, List.not_mem_nil, or_false] at ha
        rcases ha with rfl | rfl
        · exact htail
        · exact hc
      · next hfull =>
        have htail := h'.standing_tail
        rw [trySit, if_neg hfull] at htail
        simp only [List.mem_cons, List.not_mem_nil, or_false] at ha
        rcases ha with rfl | rfl
        · exact htail
        · exact hc
  | standing =>
    rw [hpc] at ha
    rw [List.mem_singleton.mp ha]
    exact hc
  | sitting sitDone =>
    rw [hpc] at ha
    dsimp only at ha
    split at ha
    · cases ha
    · simp only [List.mem_cons, List.not_mem_nil, or_false] at ha
      rcases ha with rfl | rfl | rfl
      all_goals exact hc
  | waitingCake =>
    rw [hpc] at ha hstep
    dsimp only at ha hstep
    split at ha
    · rw [List.mem_singleton.mp ha]
      exact hc
    · next hready =>
      rw [if_neg hready] at hstep
      obtain rfl := Option.some.inj hstep
      have htail := h'.paying_tail
      simp only [List.mem_cons, List.not_mem_nil, or_false] at ha
      rcases ha with rfl | rfl | rfl | rfl | rfl
      · exact hc
      · exact htail
      all_goals exact hc
  | waitingDone =>
    rw [hpc] at ha hstep
    dsimp only at ha hstep
    split at ha
    · rw [List.mem_singleton.mp ha]
      exact hc
    · next hdone =>
      rw [if_neg hdone] at hstep
      obtain rfl := Option.some.inj hstep
      rcases List.mem_cons.mp ha with rfl | ha
      · exact hc
      · unfold seatAccesses at ha
        split at ha
        · next hstands =>
          have htail := h'.sofa_tail
          rw [leave_sofa input.length hstands] at htail
          have hhead := h.standing_tail
          simp only [List.mem_cons, List.not_mem_nil, or_false] at ha
          rcases ha with rfl | rfl | rfl
          · exact Nat.lt_of_lt_of_le hstands hhead
          · exact htail
          · exact h.standing_lt hstands
        · cases ha
  | returned =>
    rw [hpc] at ha
    cases ha

/-- **The entries that a step uses are those of customers.** -/
theorem accesses_lt {t : Thread} (h : BakeryInv input s) (h' : BakeryInv input s')
    (hstep : threadStep input s t = some s') (ha : a ∈ accesses input s t) :
    a.2 < input.length := by
  cases t with
  | timer => cases ha
  | chef j => exact h.chefAccesses_lt ha
  | customer c =>
    cases hci : input[c]? with
    | none =>
      rw [accesses, hci] at ha
      cases ha
    | some ci =>
      rw [accesses, hci] at ha
      exact h.customerAccesses_lt h' hci hstep ha
  | main =>
    rw [accesses] at ha
    split at ha
    · obtain ⟨i, hi, rfl⟩ := List.mem_map.mp ha
      exact List.mem_range.mp hi
    · cases ha

/-! ## What `main` has read -/

variable {m : Main} {stdin : List Char}

/-- The lines in front of the end of the input that a customer can be read from. -/
def customerLines (stdin : List Char) : List (List Char) :=
  ((lines stdin).takeWhile fun line => !isEof line).filter fun line => (scanCustomer line).isSome

/-- `main` has stored its customers in a row. -/
structure Main.Filled (m : Main) : Prop where
  stores : m.stores = (List.range m.numCustomers).map (.customers, ·)
  clock : m.currentTime = (m.given.head?.map (·.arrivalTime)).getD 0

theorem length_given (m : Main) : m.given.length = m.numCustomers := by
  rw [Main.given, List.length_map, List.length_range]

/-- A customer is stored behind the others. -/
theorem given_store (m : Main) (ci : CustomerInput) : (m.store ci).given = m.given ++ [ci] := by
  have hold : (List.range m.numCustomers).map (Function.update m.customers m.numCustomers ci) =
      (List.range m.numCustomers).map m.customers := by
    apply List.map_congr_left
    intro i hi
    exact Function.update_of_ne (Nat.ne_of_lt (List.mem_range.mp hi)) ..
  show (List.range (m.numCustomers + 1)).map (Function.update m.customers m.numCustomers ci) = _
  rw [List.range_succ, List.map_append, hold, List.map_singleton, Function.update_self]
  rfl

theorem Main.Filled.store (h : m.Filled) (ci : CustomerInput) : (m.store ci).Filled where
  stores := by
    show m.stores ++ [(.customers, m.numCustomers)] = (List.range (m.numCustomers + 1)).map _
    rw [List.range_succ, List.map_append, h.stores]
    rfl
  clock := by
    rw [given_store]
    show (m.setClock ci.arrivalTime).currentTime = _
    unfold Main.setClock
    split
    · next hfirst =>
      have hnil : m.given = [] := List.length_eq_zero_iff.mp ((length_given m).trans hfirst)
      rw [hnil]
      rfl
    · next hlater =>
      have hne : m.given ≠ [] := by
        intro hnil
        have hlen := length_given m
        rw [hnil] at hlen
        exact hlater hlen.symm
      rw [List.head?_append_of_ne_nil _ hne]
      exact h.clock

/-- **The loop stores the customers** of the lines, one for each line that it can read one from. -/
theorem readLoop_spec (ls : List (List Char)) : ∀ {m : Main}, m.Filled →
    (readLoop ls m).Filled ∧
      (readLoop ls m).given = m.given ++
      (ls.takeWhile fun line => !isEof line).filterMap scanCustomer := by
  induction ls with
  | nil =>
    intro m h
    exact ⟨h, (List.append_nil _).symm⟩
  | cons line ls ih =>
    intro m h
    rw [readLoop, List.takeWhile_cons]
    cases heof : isEof line with
    | true => exact ⟨h, (List.append_nil _).symm⟩
    | false =>
      rw [if_neg (by decide), if_pos (by decide), List.filterMap_cons, Main.readLine]
      cases hscan : scanCustomer line with
      | none => exact ih h
      | some ci =>
        have hrest := ih (h.store ci)
        rw [given_store, List.append_assoc] at hrest
        exact hrest

theorem readInput_spec (stdin : List Char) : (readInput stdin).Filled ∧
    (readInput stdin).given = ((lines stdin).takeWhile fun line => !isEof line).filterMap
    scanCustomer :=
  readLoop_spec (lines stdin) ⟨rfl, rfl⟩

theorem length_filterMap_isSome {α β : Type} (f : α → Option β) (l : List α) :
    (l.filterMap f).length = (l.filter fun x => (f x).isSome).length := by
  induction l with
  | nil => rfl
  | cons x l ih =>
    rw [List.filterMap_cons, List.filter_cons]
    cases hx : f x with
    | none => exact ih
    | some y => exact congrArg Nat.succ ih

theorem numCustomers_readInput (stdin : List Char) :
    (readInput stdin).numCustomers = (customerLines stdin).length := by
  rw [← length_given, (readInput_spec stdin).2, length_filterMap_isSome]
  rfl

/-! ## Inputs that are handled -/

/-- The states of the simulation that `main` starts when it has read a customer. -/
def Simulated (input : List CustomerInput) (s : State) : Prop :=
  input ≠ [] ∧ ∃ es, Run (Step input) (init input) es s

/-- **An input is handled**: the arrays are used in bounds, who arrives when the bakery is full is
turned away, and nobody waits for a customer that was turned away. -/
structure Handled (stdin : List Char) : Prop where
  stored : ∀ a ∈ (readInput stdin).accesses, a.2 < maxCustomers
  used : ∀ s t s', Simulated (readInput stdin).given s →
    Step (readInput stdin).given s (.run t) s' →
    ∀ a ∈ accesses (readInput stdin).given s t, a.2 < maxCustomers
  turnedAway : ∀ s c ci, Simulated (readInput stdin).given s →
    (readInput stdin).given[c]? = some ci →
    s.customer c = .arriving → ci.arrivalTime ≤ s.currentTime →
    (maxCustomers : Int) ≤ s.customersInside →
      customerStep (readInput stdin).given c s = some (s.setCustomer c .returned)
  ends : ∀ s, Simulated (readInput stdin).given s →
    (∀ c < (readInput stdin).given.length, s.customer c = .returned) →
      (((readInput stdin).given.length : Nat) : Int) ≤ s.customersFinished

/-- When all customers have returned the loop of the timer ends: nobody was turned away. -/
theorem BakeryInv.allFinished (h : BakeryInv input s)
    (hgone : ∀ c < input.length, s.customer c = .returned) :
    (input.length : Int) ≤ s.customersFinished := by
  have hall := card_le_tally (S := Finset.range input.length) (p := s.isGone) fun c hc =>
    decide_eq_true (hgone c (Finset.mem_range.mp hc))
  rwa [Finset.card_range, ← h.count.finished] at hall

/-- **An input is handled if and only if it has at most 25 customers.** -/
theorem handled_iff (stdin : List Char) :
    Handled stdin ↔ (customerLines stdin).length ≤ maxCustomers := by
  have hnum := numCustomers_readInput stdin
  obtain ⟨hfilled, -⟩ := readInput_spec stdin
  constructor
  · intro h
    by_contra hmany
    -- the entry behind the array is stored
    refine absurd (h.stored (.customers, maxCustomers) ?_) (Nat.lt_irrefl _)
    rw [Main.accesses, hfilled.stores]
    apply List.mem_append_left
    apply List.mem_map_of_mem
    rw [List.mem_range]
    omega
  · intro hle
    have hlen : (readInput stdin).given.length ≤ maxCustomers := by
      rw [length_given, hnum]
      exact hle
    have hinv : ∀ s, Simulated (readInput stdin).given s → BakeryInv (readInput stdin).given s :=
      fun s hs => Reachable.bakery ⟨hlen, hs.2⟩
    refine ⟨fun a ha => ?_, fun s t s' hs hstep a ha => ?_, fun s c ci hs hci hpc htime hfull => ?_,
      fun s hs hgone => (hinv s hs).allFinished hgone⟩
    · rw [Main.accesses, hfilled.stores, List.mem_append] at ha
      have hlt : a.2 < (readInput stdin).numCustomers := by
        rcases ha with ha | ha
        all_goals
          obtain ⟨i, hi, rfl⟩ := List.mem_map.mp ha
          exact List.mem_range.mp hi
      omega
    · have hnext := (hinv s hs).step hlen hstep
      cases hstep with
      | run ready step => exact Nat.lt_of_lt_of_le (accesses_lt (hinv s hs) hnext step ha) hlen
    · unfold customerStep
      rw [hci, hpc]
      dsimp only
      rw [if_neg (Int32.not_lt.mpr htime), enter, if_pos hfull]

/-- An input of 26 customers. -/
def fullHouse : List Char := (List.replicate 26 "5 Customer 1\n".toList).flatten

set_option maxRecDepth 100000 in
/-- The 26th customer is stored behind the end of `customers`. -/
theorem overflows : (.customers, 25) ∈ (readInput fullHouse).accesses ∧ ¬ Handled fullHouse := by
  have hmem : (.customers, 25) ∈ (readInput fullHouse).accesses := by
    decide +kernel
  exact ⟨hmem, fun h => absurd (h.stored _ hmem) (by decide)⟩

end Bakery
