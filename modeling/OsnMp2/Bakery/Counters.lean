import OsnMp2.Bakery.Flow
import OsnMp2.Lib.Tally

/-!
# The counters of the bakery

Every shared counter shows the number of the things that it counts, and no counter passes its
limit. A seat goes from a customer that leaves to one that stands without the counter of the sofa
being seen in between, and as long as somebody stands all seats are taken. Since a customer
counts as inside from its entry to its return, at most 24 of the 25 are inside when one arrives,
and nobody is sent away.

## Main definitions

* `State.isInside`, `State.isGone`, `State.hasSeat`: what the counters of the customers count
* `CountInv`: the counters of the customers
* `QueueInv`: the arrays of the queues
* `BakeryInv`: the invariants together

## Main results

* `BakeryInv.step`, `Reachable.bakery`: the invariants hold in every reachable state
* `counters_exact`: the counters and the queues
-/

namespace Bakery

variable {input : List CustomerInput} {fits : Thread → Int32 → Prop} {s s' : State} {c d n : Nat}
  {j : Fin maxChefs}

/-! ## What the counters count -/

/-- The customer is gone. -/
def State.isGone (s : State) (c : Nat) : Bool := decide (s.customer c = .returned)

/-- The customer has entered and is not gone. -/
def State.isInside (s : State) (c : Nat) : Bool := s.entered c && !s.isGone c

/-- The customer has a seat and is not gone. -/
def State.hasSeat (s : State) (c : Nat) : Bool := s.seated c && !s.isGone c

/-- **The counters of the customers.** -/
structure CountInv (n : Nat) (s : State) : Prop where
  inside : s.customersInside = tally (Finset.range n) s.isInside
  finished : s.customersFinished = tally (Finset.range n) s.isGone
  sofa : s.sofaCount = tally (Finset.range n) s.hasSeat
  sofa_le : s.sofaCount ≤ (maxSofa : Int)
  full : s.standing.head < s.standing.tail → s.sofaCount = (maxSofa : Int)

/-- A change that no counter of the customers sees. -/
theorem CountInv.same (h : CountInv n s) (hinside : ∀ d, s'.isInside d = s.isInside d)
    (hgone : ∀ d, s'.isGone d = s.isGone d) (hseat : ∀ d, s'.hasSeat d = s.hasSeat d)
    (hci : s'.customersInside = s.customersInside)
    (hcf : s'.customersFinished = s.customersFinished) (hsc : s'.sofaCount = s.sofaCount)
    (hfull : s'.standing.head < s'.standing.tail →
      s.standing.head < s.standing.tail ∨ (maxSofa : Int) ≤ s.sofaCount) : CountInv n s' where
  inside := by rw [hci, h.inside, tally_congr fun d _ => hinside d]
  finished := by rw [hcf, h.finished, tally_congr fun d _ => hgone d]
  sofa := by rw [hsc, h.sofa, tally_congr fun d _ => hseat d]
  sofa_le := by rw [hsc]; exact h.sofa_le
  full hlt := by
    rw [hsc]
    rcases hfull hlt with hlt | hle
    · exact h.full hlt
    · exact Int.le_antisymm h.sofa_le hle

/-- A customer that arrives finds room. -/
theorem CountInv.room (h : CountInv n s) (hflow : FlowInv n s) (hn : n ≤ maxCustomers) (hc : c < n)
    (hpc : s.customer c = .arriving) : s.customersInside < (maxCustomers : Int) := by
  have hout : s.isInside c = false := by
    have : s.entered c = false := by
      by_contra hne
      exact (hflow.view c).entered.mp (by simpa [State.view] using hne) hpc
    rw [State.isInside, this, Bool.false_and]
  have hlt := tally_lt (Finset.mem_range.mpr hc) hout
  rw [← h.inside, Finset.card_range] at hlt
  omega

/-- A customer moves on, and nobody goes. -/
theorem isGone_walk {pc : CustomerPc} (hcust : s'.customer = Function.update s.customer c pc)
    (hret : pc ≠ .returned) (hpc : s.customer c ≠ .returned) (d : Nat) :
    s'.isGone d = s.isGone d := by
  unfold State.isGone
  rw [hcust]
  by_cases hd : d = c
  · rw [hd, Function.update_self]
    simp [hret, hpc]
  · rw [Function.update_of_ne hd]

/-- A customer moves on, in the bakery all the time. -/
theorem CountInv.walk {pc : CustomerPc} (h : CountInv n s) (hret : pc ≠ .returned)
    (hpc : s.customer c ≠ .returned) (hcust : s'.customer = Function.update s.customer c pc)
    (hentered : s'.entered = s.entered) (hseated : s'.seated = s.seated)
    (hci : s'.customersInside = s.customersInside)
    (hcf : s'.customersFinished = s.customersFinished) (hsc : s'.sofaCount = s.sofaCount)
    (hfull : s'.standing.head < s'.standing.tail →
      s.standing.head < s.standing.tail ∨ (maxSofa : Int) ≤ s.sofaCount) : CountInv n s' := by
  have hgone := isGone_walk hcust hret hpc
  refine h.same (fun d => ?_) hgone (fun d => ?_) hci hcf hsc hfull
  · rw [State.isInside, State.isInside, hgone d, hentered]
  · rw [State.hasSeat, State.hasSeat, hgone d, hseated]

theorem CountInv.enter {t : Int32} (h : CountInv n s) (hflow : FlowInv n s) (hc : c < n)
    (hpc : s.customer c = .arriving)
    (hcust : s'.customer = Function.update s.customer c (.entering t))
    (hentered : s'.entered = Function.update s.entered c true) (hseated : s'.seated = s.seated)
    (hci : s'.customersInside = s.customersInside + 1)
    (hcf : s'.customersFinished = s.customersFinished) (hsc : s'.sofaCount = s.sofaCount)
    (hstanding : s'.standing = s.standing) : CountInv n s' := by
  have hbefore : s.entered c = false := by
    by_contra hne
    exact (hflow.view c).entered.mp (by simpa [State.view] using hne) hpc
  have hgone := isGone_walk hcust (by rintro ⟨⟩) (by rw [hpc]; rintro ⟨⟩)
  refine ⟨?_, ?_, ?_, by rw [hsc]; exact h.sofa_le, by rw [hsc, hstanding]; exact h.full⟩
  · -- this one is counted from now on
    rw [tally_move (p := s.isInside) (Finset.mem_range.mpr hc) fun d _ hd => by
      simp [State.isInside, State.isGone, hentered, hcust, Function.update_of_ne hd], hci, h.inside]
    simp [State.isInside, State.isGone, hentered, hcust, hbefore]
  · rw [hcf, h.finished, tally_congr fun d _ => hgone d]
  · have hseat : ∀ d, s'.hasSeat d = s.hasSeat d := fun d => by
      rw [State.hasSeat, State.hasSeat, hseated, hgone d]
    rw [hsc, h.sofa, tally_congr fun d _ => hseat d]

theorem CountInv.sit {enterDone t : Int32} (h : CountInv n s) (hflow : FlowInv n s) (hc : c < n)
    (hpc : s.customer c = .entering enterDone) (hroom : s.sofaCount < (maxSofa : Int))
    (hcust : s'.customer = Function.update s.customer c (.sitting t))
    (hentered : s'.entered = s.entered) (hseated : s'.seated = Function.update s.seated c true)
    (hci : s'.customersInside = s.customersInside)
    (hcf : s'.customersFinished = s.customersFinished)
    (hsc : s'.sofaCount = s.sofaCount + 1) (hstanding : s'.standing = s.standing) :
    CountInv n s' := by
  have hbefore : s.seated c = false := by
    by_contra hne
    have := (hflow.view c).seated (by simpa [State.view] using hne)
    rw [show (s.view c).pc = .entering enterDone from hpc] at this
    cases this
  have hgone := isGone_walk hcust (by rintro ⟨⟩) (by rw [hpc]; rintro ⟨⟩)
  refine ⟨?_, ?_, ?_, by rw [hsc]; exact Int.add_one_le_iff.mpr hroom, fun hlt => ?_⟩
  · have hinside : ∀ d, s'.isInside d = s.isInside d := fun d => by
      rw [State.isInside, State.isInside, hentered, hgone d]
    rw [hci, h.inside, tally_congr fun d _ => hinside d]
  · rw [hcf, h.finished, tally_congr fun d _ => hgone d]
  · rw [tally_move (p := s.hasSeat) (Finset.mem_range.mpr hc) fun d _ hd => by
      simp [State.hasSeat, State.isGone, hseated, hcust, Function.update_of_ne hd], hsc, h.sofa]
    simp [State.hasSeat, State.isGone, hseated, hcust, hbefore]
  · -- nobody stands as long as there is room
    rw [hstanding] at hlt
    have := h.full hlt
    omega

/-- What the counters of the customers say when one of them goes. -/
theorem CountInv.gone (h : CountInv n s) (hflow : FlowInv n s) (hc : c < n)
    (hpc : s.customer c = .waitingDone)
    (hcust : s'.customer = Function.update s.customer c .returned)
    (hentered : s'.entered = s.entered) :
    s.customersInside - 1 = tally (Finset.range n) s'.isInside ∧
    s.customersFinished + 1 = tally (Finset.range n) s'.isGone := by
  have hin : s.entered c = true := (hflow.view c).entered.mpr (by
    rw [show (s.view c).pc = .waitingDone from hpc]
    rintro ⟨⟩)
  constructor
  · rw [tally_move (p := s.isInside) (Finset.mem_range.mpr hc) fun d _ hd => by
      simp [State.isInside, State.isGone, hcust, hentered, Function.update_of_ne hd]]
    simp [State.isInside, State.isGone, hcust, hin, hpc, h.inside]
  · rw [tally_move (p := s.isGone) (Finset.mem_range.mpr hc) fun d _ hd => by
      simp [State.isGone, hcust, Function.update_of_ne hd]]
    simp [State.isGone, hcust, hpc, h.finished]

/-- A customer that leaves has a seat. -/
theorem FlowInv.hasSeat (h : FlowInv n s) (hpc : s.customer c = .waitingDone) :
    s.hasSeat c = true := by
  have hseat : s.seated c = true := (h.view c).sits (by
    rw [show (s.view c).pc = .waitingDone from hpc]
    rfl)
  simp [State.hasSeat, State.isGone, hseat, hpc]

theorem CountInv.leave (h : CountInv n s) (hflow : FlowInv n s) (hc : c < n)
    (hpc : s.customer c = .waitingDone) (hnobody : s.standing.tail ≤ s.standing.head)
    (hcust : s'.customer = Function.update s.customer c .returned)
    (hentered : s'.entered = s.entered)
    (hseated : s'.seated = s.seated) (hci : s'.customersInside = s.customersInside - 1)
    (hcf : s'.customersFinished = s.customersFinished + 1) (hsc : s'.sofaCount = s.sofaCount - 1)
    (hstanding : s'.standing = s.standing) : CountInv n s' := by
  obtain ⟨hin, hgone⟩ := h.gone hflow hc hpc hcust hentered
  refine ⟨hci.trans hin, hcf.trans hgone, ?_, ?_, fun hlt => ?_⟩
  · rw [tally_move (p := s.hasSeat) (Finset.mem_range.mpr hc) fun d _ hd => by
      simp [State.hasSeat, State.isGone, hseated, hcust, Function.update_of_ne hd],
        hflow.hasSeat hpc, hsc, h.sofa]
    simp [State.hasSeat, State.isGone, hcust]
  · have := h.sofa_le
    omega
  · rw [hstanding] at hlt
    exact absurd hlt (Nat.not_lt.mpr hnobody)

theorem CountInv.leaveSeat (h : CountInv n s) (hinv : Inv s) (hflow : FlowInv n s) (hc : c < n)
    (hpc : s.customer c = .waitingDone) (hstands : s.standing.head < s.standing.tail)
    (hcust : s'.customer = Function.update s.customer c .returned)
    (hentered : s'.entered = s.entered)
    (hseated : s'.seated = Function.update s.seated s.standing.front true)
    (hci : s'.customersInside = s.customersInside - 1)
    (hcf : s'.customersFinished = s.customersFinished + 1)
    (hsc : s'.sofaCount = s.sofaCount - 1 + 1) :
    CountInv n s' := by
  obtain ⟨hin, hgone⟩ := h.gone hflow hc hpc hcust hentered
  obtain ⟨hst, hse⟩ := hinv.sofa.standing_mem _ (ArrayQueue.front_mem hstands)
  have hne : s.standing.front ≠ c := by
    intro heq
    rw [heq, hpc] at hst
    cases hst
  have hfront : s.standing.front < n := by
    by_contra hge
    rw [hflow.range _ (Nat.not_lt.mp hge)] at hst
    cases hst
  refine ⟨hci.trans hin, hcf.trans hgone, ?_, ?_, fun _ => ?_⟩
  · -- the seat of the one that goes is free, and the one that stands takes it
    have hmid : tally (Finset.range n) (Function.update s.hasSeat c false) = s.sofaCount - 1 := by
      rw [tally_move (p := s.hasSeat) (Finset.mem_range.mpr hc) fun d _ hd =>
        Function.update_of_ne hd .., hflow.hasSeat hpc, Function.update_self]
      simp [h.sofa]
    have hrest : ∀ d, d ≠ s.standing.front →
      s'.hasSeat d = Function.update s.hasSeat c false d := by
      intro d hd
      by_cases hdc : d = c
      · simp [State.hasSeat, State.isGone, hcust, hdc]
      · simp [State.hasSeat, State.isGone, hseated, hcust, Function.update_of_ne hd,
          Function.update_of_ne hdc]
    rw [tally_move (Finset.mem_range.mpr hfront) fun d _ hd => hrest d hd, hmid,
      Function.update_of_ne hne, hsc]
    simp [State.hasSeat, State.isGone, hse, hseated, hcust, Function.update_of_ne hne, hst]
  · have := h.sofa_le
    omega
  · have := h.full hstands
    omega

/-- **Every change keeps the counters of the customers.** -/
theorem CountInv.change (h : CountInv input.length s) (hinv : Inv s)
    (hflow : FlowInv input.length s)
    (hn : input.length ≤ maxCustomers) (hch : Change input fits s s') :
    CountInv input.length s' := by
  have hknown : ∀ {c : Nat} {ci : CustomerInput}, input[c]? = some ci → c < input.length :=
    fun hci =>
    (List.getElem?_eq_some_iff.mp hci).1
  cases hch with
  | pause | tick | setTimer | setMain | endMain | chefIdle | startAccept | endAccept | startBake
  | endBake =>
    exact h.same (fun _ => rfl) (fun _ => rfl) (fun _ => rfl) rfl rfl rfl Or.inl
  | refuse known arriving full =>
    have := h.room hflow hn (hknown known) arriving
    omega
  | enter known arriving arrived sum =>
    exact h.enter hflow (hknown known) arriving rfl rfl rfl rfl rfl rfl rfl
  | sit known entering elapsed room sum =>
    exact h.sit hflow known entering room rfl rfl rfl rfl rfl rfl rfl
  | stand known entering elapsed full =>
    exact h.walk (by rintro ⟨⟩) (by rw [entering]; rintro ⟨⟩) rfl rfl rfl rfl rfl rfl fun _ =>
      Or.inr full
  | sitDown known standing seated sum =>
    exact h.walk (by rintro ⟨⟩) (by rw [standing]; rintro ⟨⟩) rfl rfl rfl rfl rfl rfl Or.inl
  | request known sitting elapsed =>
    exact h.walk (by rintro ⟨⟩) (by rw [sitting]; rintro ⟨⟩) rfl rfl rfl rfl rfl rfl Or.inl
  | pay known waiting ready =>
    exact h.walk (by rintro ⟨⟩) (by rw [waiting]; rintro ⟨⟩) rfl rfl rfl rfl rfl rfl Or.inl
  | leave known waiting done nobody last =>
    exact h.leave hflow known waiting nobody rfl rfl rfl rfl rfl rfl rfl
  | leaveSeat known waiting done stands last =>
    exact h.leaveSeat hinv hflow known waiting stands rfl rfl rfl rfl rfl rfl

/-! ## The arrays of the queues -/

/-- **The arrays of the queues**: a customer stands at most once and pays at most once, and the head
of the sofa queue stays where it is. -/
structure QueueInv (s : State) : Prop where
  standing_nodup : s.standing.pushed.Nodup
  standing_mem : ∀ c ∈ s.standing.pushed, (s.customer c).early = false
  paying_nodup : s.waitingPayment.pushed.Nodup
  paying_mem : ∀ c ∈ s.waitingPayment.pushed, s.paid c = true
  sofa_head : s.onSofa.head = 0

/-- A change that stores nothing in the two queues. -/
theorem QueueInv.same (h : QueueInv s) (hstanding : s'.standing.pushed = s.standing.pushed)
    (hpaying : s'.waitingPayment.pushed = s.waitingPayment.pushed)
    (hsofa : s'.onSofa.head = s.onSofa.head)
    (hearly : ∀ d, (s.customer d).early = false → (s'.customer d).early = false)
    (hpaid : s'.paid = s.paid) : QueueInv s' where
  standing_nodup := by rw [hstanding]; exact h.standing_nodup
  standing_mem d hd := by
    rw [hstanding] at hd
    exact hearly d (h.standing_mem d hd)
  paying_nodup := by rw [hpaying]; exact h.paying_nodup
  paying_mem := by rw [hpaying, hpaid]; exact h.paying_mem
  sofa_head := hsofa.trans h.sofa_head

/-- A customer that moves on does not start again. -/
theorem early_update {pc : CustomerPc} (hpc : (s.customer c).early = true ∨ pc.early = false)
    (d : Nat)
    (hd : (s.customer d).early = false) : (Function.update s.customer c pc d).early = false := by
  by_cases hdc : d = c
  · rw [hdc, Function.update_self]
    rcases hpc with hpc | hpc
    · rw [hdc, hpc] at hd
      cases hd
    · exact hpc
  · rw [Function.update_of_ne hdc]
    exact hd

theorem nodup_concat {l : List Nat} (h : l.Nodup) (hc : c ∉ l) : (l ++ [c]).Nodup :=
  List.nodup_append.mpr ⟨h, List.nodup_singleton c, fun d hd e he => by
    rintro rfl
    rw [List.mem_singleton.mp he] at hd
    exact hc hd⟩

/-- **Every change keeps the arrays of the queues.** -/
theorem QueueInv.change (h : QueueInv s) (hflow : FlowInv n s) (hch : Change input fits s s') :
    QueueInv s' := by
  cases hch with
  | pause | tick | setTimer | setMain | endMain | chefIdle | startAccept | endAccept | startBake
  | endBake => exact h.same rfl rfl rfl (fun _ hd => hd) rfl
  | refuse known arriving full =>
    exact h.same rfl rfl rfl (early_update (Or.inl (by rw [arriving]; rfl))) rfl
  | enter known arriving arrived sum =>
    exact h.same rfl rfl rfl (early_update (Or.inl (by rw [arriving]; rfl))) rfl
  | sit | sitDown | request | leave | leaveSeat =>
    exact h.same rfl rfl rfl (early_update (Or.inr rfl)) rfl
  | stand known entering elapsed full =>
    rename_i c enterDone waits
    have hnot : c ∉ s.standing.pushed := fun hmem => by
      have := h.standing_mem c hmem
      rw [entering] at this
      cases this
    refine ⟨?_, fun d hd => ?_, h.paying_nodup, h.paying_mem, h.sofa_head⟩
    · rw [ArrayQueue.pushed_push]
      exact nodup_concat h.standing_nodup hnot
    · rw [ArrayQueue.pushed_push] at hd
      rcases List.mem_append.mp hd with hd | hd
      · exact early_update (Or.inr rfl) d (h.standing_mem d hd)
      · show (Function.update s.customer c .standing d).early = false
        rw [List.mem_singleton.mp hd, Function.update_self]
        rfl
  | pay known waiting ready =>
    rename_i c waits
    have hpaid : s.paid c = false := by
      by_contra hne
      have := (hflow.view c).paid.mp (by simpa [State.view] using hne)
      rw [show (s.view c).pc = .waitingCake from waiting] at this
      cases this
    have hnot : c ∉ s.waitingPayment.pushed := fun hmem => by
      have := h.paying_mem c hmem
      rw [hpaid] at this
      cases this
    refine ⟨h.standing_nodup, fun d hd => early_update (Or.inr rfl) d (h.standing_mem d hd), ?_,
      fun d hd => ?_, h.sofa_head⟩
    · rw [ArrayQueue.pushed_push]
      exact nodup_concat h.paying_nodup hnot
    · show Function.update s.paid c true d = true
      rw [ArrayQueue.pushed_push] at hd
      rcases List.mem_append.mp hd with hd | hd
      · by_cases hdc : d = c
        · rw [hdc, Function.update_self]
        · rw [Function.update_of_ne hdc]
          exact h.paying_mem d hd
      · rw [List.mem_singleton.mp hd, Function.update_self]

/-! ## The invariants together -/

/-- **The invariants of the bakery**, for its input. -/
structure BakeryInv (input : List CustomerInput) (s : State) : Prop where
  inv : Inv s
  flow : FlowInv input.length s
  count : CountInv input.length s
  queue : QueueInv s

theorem FlowInv.init (input : List CustomerInput) : FlowInv n (init input) := by
  refine ⟨fun c => ?_, fun _ _ => rfl, ⟨fun a => ?_, fun i j a hi => ?_⟩,
    ⟨fun a => ?_, fun i j a hi => ?_⟩, fun c hc => ?_, ?_, fun c d hc => ?_⟩
  · have hno : ¬ false = true := Bool.false_ne_true
    exact ⟨iff_of_false hno fun hc => hc rfl, fun hc => absurd hc hno, fun hc => absurd hc hno,
      iff_of_false hno hno,
      fun hc => absurd hc hno, fun hc => absurd hc hno, iff_of_false hno hno, fun hc =>
      absurd hc hno, fun hc => absurd hc hno, fun hc => by cases hc⟩
  · simp [State.InOven, Bakery.init, ChefPc.bakesFor]
  · cases hi
  · simp [State.AtCashier, Bakery.init, ChefPc.acceptsFor]
  · cases hi
  · cases hc
  · simp [State.AtCashier, Bakery.init]
  · cases hc.1

theorem CountInv.init (input : List CustomerInput) : CountInv n (init input) where
  inside := (tally_eq_zero fun _ _ => rfl).symm
  finished := (tally_eq_zero fun _ _ => rfl).symm
  sofa := (tally_eq_zero fun _ _ => rfl).symm
  sofa_le := Int.natCast_nonneg 4
  full hlt := absurd hlt (Nat.lt_irrefl 0)

theorem BakeryInv.init (input : List CustomerInput) : BakeryInv input (init input) where
  inv := Inv.init input
  flow := FlowInv.init input
  count := CountInv.init input
  queue :=
    { standing_nodup := List.nodup_nil
      standing_mem := fun _ hc => absurd hc List.not_mem_nil
      paying_nodup := List.nodup_nil
      paying_mem := fun _ hc => absurd hc List.not_mem_nil
      sofa_head := rfl }

/-- **Every step keeps the invariants.** -/
theorem BakeryInv.step {e : Event} (h : BakeryInv input s) (hn : input.length ≤ maxCustomers)
    (hstep : Step input s e s') : BakeryInv input s' where
  inv := h.inv.step hstep
  flow := h.flow.change h.inv (fun _ hc hpc => h.count.room h.flow hn hc hpc) (h.inv.change hstep)
  count := h.count.change h.inv h.flow hn (h.inv.change hstep)
  queue := h.queue.change h.flow (h.inv.change hstep)

theorem Reachable.bakery (h : Reachable input s) : BakeryInv input s := by
  obtain ⟨hn, es, hrun⟩ := h
  exact hrun.invariant (I := BakeryInv input) (fun _ _ _ hi hs => hi.step hn hs)
    (BakeryInv.init input)

/-! ## The limits -/

/-- Distinct customers are at most `n`. -/
theorem length_le_of_nodup {l : List Nat} (h : l.Nodup) (hlt : ∀ c ∈ l, c < n) : l.length ≤ n := by
  have hsub : l ⊆ List.range n := fun c hc => List.mem_range.mpr (hlt c hc)
  have := h.length_le_of_subset hsub
  rwa [List.length_range] at this

/-- A customer that has done something is one of the input. -/
theorem FlowInv.lt (h : FlowInv n s) (hpc : s.customer c ≠ .arriving) : c < n := by
  by_contra hge
  exact hpc (h.range c (Nat.not_lt.mp hge))

theorem BakeryInv.standing_tail (h : BakeryInv input s) : s.standing.tail ≤ input.length := by
  rw [← ArrayQueue.length_pushed]
  refine length_le_of_nodup h.queue.standing_nodup fun c hc => h.flow.lt fun hpc => ?_
  have := h.queue.standing_mem c hc
  rw [hpc] at this
  cases this

theorem BakeryInv.paying_tail (h : BakeryInv input s) : s.waitingPayment.tail ≤ input.length := by
  rw [← ArrayQueue.length_pushed]
  refine length_le_of_nodup h.queue.paying_nodup fun c hc => h.flow.lt fun hpc => ?_
  have := (h.flow.view c).paid.mp (h.queue.paying_mem c hc)
  rw [show (s.view c).pc = .arriving from hpc] at this
  cases this

theorem BakeryInv.sofa_tail (h : BakeryInv input s) : s.onSofa.tail ≤ input.length := by
  have hlen := ArrayQueue.length_contents s.onSofa
  rw [h.queue.sofa_head, Nat.sub_zero] at hlen
  rw [← hlen]
  refine length_le_of_nodup h.inv.sofa.sofa_nodup fun c hc => h.flow.lt fun hpc => ?_
  have := (h.flow.view c).seated ((h.inv.sofa.mem_sofa c).mp hc).1
  rw [show (s.view c).pc = .arriving from hpc] at this
  cases this

/-- The chef is inside a payment. -/
def ChefPc.accepts : ChefPc → Bool
  | .accepting .. => true
  | _ => false

theorem ChefPc.accepts_iff (pc : ChefPc) : pc.accepts = true ↔ ∃ c, pc.acceptsFor = some c := by
  cases pc <;> simp [ChefPc.accepts, ChefPc.acceptsFor]

/-- The register is taken exactly when a chef is inside a payment, and one chef at most is. -/
theorem FlowInv.register (h : FlowInv n s) :
    (s.cashierFree = false ↔ ∃ j, (s.chef j).accepts = true) ∧
    ∀ i j, (s.chef i).accepts = true → (s.chef j).accepts = true → i = j := by
  constructor
  · rw [h.cashier]
    constructor
    · rintro ⟨c, hc⟩
      obtain ⟨j, hj⟩ := (h.acceptors.iff c).mp hc
      exact ⟨j, (ChefPc.accepts_iff _).mpr ⟨c, hj⟩⟩
    · rintro ⟨j, hj⟩
      obtain ⟨c, hc⟩ := (ChefPc.accepts_iff _).mp hj
      exact ⟨c, h.acceptors.busy_of hc⟩
  · intro i j hi hj
    obtain ⟨c, hc⟩ := (ChefPc.accepts_iff _).mp hi
    obtain ⟨d, hd⟩ := (ChefPc.accepts_iff _).mp hj
    obtain rfl := h.single c d (h.acceptors.busy_of hc) (h.acceptors.busy_of hd)
    exact h.acceptors.unique i j c hc hd

theorem ChefInv.ovens_tally (h : ChefInv s) :
    s.ovensUsed = tally Finset.univ (fun j => (s.chef j).bakes) := by
  rw [h.ovens, tally_eq_sum]

theorem ChefInv.idle_tally (h : ChefInv s) :
    s.chefsIdle = (maxChefs : Int) - tally Finset.univ (fun j => (s.chef j).busy) := by
  have hsum : (∑ j, if (s.chef j).busy then (0 : Int) else 1) +
      (∑ j, if (s.chef j).busy = true then (1 : Int) else 0) = (maxChefs : Int) := by
    rw [← Finset.sum_add_distrib]
    calc (∑ j,
      ((if (s.chef j).busy then (0 : Int) else 1) + if (s.chef j).busy = true then 1 else 0))
        = ∑ _j : Fin maxChefs, (1 : Int) := by
          apply Finset.sum_congr rfl
          intro j _
          split <;> rfl
      _ = maxChefs := by simp
  rw [tally_eq_sum, h.idle]
  omega

/-- **The counters are exact and within their limits.** In every reachable state the sofa counter is
the number of customers that have a seat and are not gone, at most four; the two counters of the
customers are the numbers of those inside and of those gone; the oven counter is the number of chefs
inside a bake, at most four; the register is taken exactly when a chef is inside a payment, and
never two are; the counter of the idle chefs is four minus the chefs inside a bake or a payment; and
the indices of the three queues stay in order and within the number of customers. -/
theorem counters_exact (h : Reachable input s) :
    (s.sofaCount = tally (Finset.range input.length) s.hasSeat ∧ s.sofaCount ≤ (maxSofa : Int)) ∧
    (s.customersInside = tally (Finset.range input.length) s.isInside ∧
      s.customersFinished = tally (Finset.range input.length) s.isGone) ∧
    (s.ovensUsed = tally Finset.univ (fun j => (s.chef j).bakes) ∧ s.ovensUsed ≤ (maxOvens : Int)) ∧
    ((s.cashierFree = false ↔ ∃ j, (s.chef j).accepts = true) ∧
      ∀ i j, (s.chef i).accepts = true → (s.chef j).accepts = true → i = j) ∧
    s.chefsIdle = (maxChefs : Int) - tally Finset.univ (fun j => (s.chef j).busy) ∧
    ∀ q ∈ [s.standing, s.onSofa, s.waitingPayment], q.head ≤ q.tail ∧ q.tail ≤ input.length := by
  have hb := h.bakery
  refine ⟨⟨hb.count.sofa, hb.count.sofa_le⟩, ⟨hb.count.inside, hb.count.finished⟩,
    ⟨hb.inv.chefs.ovens_tally, ?_⟩, hb.flow.register, hb.inv.chefs.idle_tally, fun q hq => ?_⟩
  · rw [hb.inv.chefs.ovens_tally]
    exact tally_le ..
  · simp only [List.mem_cons, List.not_mem_nil, or_false] at hq
    rcases hq with rfl | rfl | rfl
    · exact ⟨hb.inv.sofa.standing_le, hb.standing_tail⟩
    · exact ⟨hb.inv.sofa.sofa_le, hb.sofa_tail⟩
    · exact ⟨hb.inv.pay.le, hb.paying_tail⟩

/-- In the rush hour the four seats are taken and two customers stand; one chef bakes, one is at the
cash register, which is taken, and two are idle. -/
theorem counters_exact_rush : tally (Finset.range 6) rushHour.hasSeat = 4 ∧
    tally (Finset.range 6) rushHour.isInside = 6 ∧
    tally Finset.univ (fun j => (rushHour.chef j).bakes) = 1 ∧
    (∃ j, (rushHour.chef j).accepts = true) ∧
    tally Finset.univ (fun j => (rushHour.chef j).busy) = 2 := by
  obtain ⟨⟨hsofa, -⟩, ⟨hinside, -⟩, ⟨hovens, -⟩, ⟨hregister, -⟩, hidle, -⟩ :=
    counters_exact rushHour_reachable
  have hlen : sixCustomers.length = 6 := rfl
  rw [hlen] at hsofa hinside
  refine ⟨?_, ?_, ?_, hregister.mp (by decide +kernel), ?_⟩
  · rw [← hsofa]
    decide +kernel
  · rw [← hinside]
    decide +kernel
  · rw [← hovens]
    decide +kernel
  · have htwo : rushHour.chefsIdle = 2 := by decide +kernel
    have hfour : (maxChefs : Int) = 4 := rfl
    omega

end Bakery
