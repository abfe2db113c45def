import Mathlib.Data.List.Chain
import OsnMp2.Bakery.Counters

/-!
# The timing rules of the output

The lines about one customer come in a fixed order, with a fixed time between two of them at
least. Each pair of neighbours in that order is kept apart by something else: a local variable
of the customer, a flag and a time that the customer leaves for the chefs, or a local variable
of the chef that works for it. `State.Due` says for every control point what the time of the
last line is compared with.

## Main definitions

* `LineKind`, `Line.kind`, `Line.time`, `Line.about`: what a line says
* `State.linesOf`: the lines about one customer
* `State.stage`, `State.Due`: how many lines there are, and from when on the next one may come
* `TraceOf`, `OutInv`: the lines about one customer, and the output as a whole
* `SumFits`: no sum of the step overflows

## Main results

* `TraceOf.change`, `OutInv.change`: every change keeps the invariants
* `timing_rules`: the order of the lines and their times
-/

namespace Bakery

variable {input : List CustomerInput} {fits : Thread → Int32 → Prop} {s s' : State} {c d n : Nat}
  {j : Fin maxChefs} {l : Line}

/-! ## Lines -/

/-- What happens, in the order in which it happens to a customer. -/
inductive LineKind
  | enters
  | sits
  | requests
  | bakes
  | pays
  | accepts
  | leaves
deriving DecidableEq

def Line.kind : Line → LineKind
  | .enters .. => .enters
  | .sits .. => .sits
  | .requests .. => .requests
  | .bakes .. => .bakes
  | .pays .. => .pays
  | .accepts .. => .accepts
  | .leaves .. => .leaves

/-- The time that is printed. -/
def Line.time : Line → Int
  | .enters t _ | .sits t _ | .requests t _ | .bakes t _ _ | .pays t _ | .accepts t _
      _ | .leaves t _ =>
    t.toInt

/-- The customer that the line is about. -/
def Line.about : Line → Nat
  | .enters _ c | .sits _ c | .requests _ c | .bakes _ _ c | .pays _ c | .accepts _ _
      c | .leaves _ c => c

/-- The events of a customer, in order. -/
def LineKind.all : List LineKind := [.enters, .sits, .requests, .bakes, .pays, .accepts, .leaves]

/-- The time from the event before to this one, at least. -/
def LineKind.gap : LineKind → Int
  | .enters => 0
  | .sits | .requests | .bakes | .accepts => 1
  | .pays | .leaves => 2

/-- The lines about the customer, in order. -/
def State.linesOf (s : State) (c : Nat) : List Line := s.out.filter fun l => l.about = c

/-- A line comes at the time that it needs after the one before it, or later. -/
def Line.Follows (l l' : Line) : Prop := l.time + l'.kind.gap ≤ l'.time

/-! ## Sums that fit -/

/-- The seconds can be added to the current time without an overflow. -/
def State.Fits (s : State) (_ : Thread) (k : Int32) : Prop :=
  s.currentTime.toInt + k.toInt ≤ Int32.maxValue.toInt

/-- **No sum overflows** at the step: the current time with the seconds that its thread
adds to it is an `int`. -/
def SumFits (input : List CustomerInput) (s : State) (e : Event) : Prop :=
  ∀ t k, e = .run t → s.adds input t = some k → s.Fits t k

/-- A sum that fits is the sum of the integers. -/
theorem State.Fits.toInt_add {t : Thread} {k : Int32} (h : s.Fits t k) (hk : 0 ≤ k.toInt) :
    (s.currentTime + k).toInt = s.currentTime.toInt + k.toInt := by
  have hge := s.currentTime.minValue_le_toInt
  rw [State.Fits, Int32.toInt_maxValue] at h
  rw [Int32.toInt_minValue] at hge
  rw [Int32.toInt_add, Int.bmod_eq_of_le (by omega) (by omega)]

theorem State.Fits.one {t : Thread} (h : s.Fits t 1) :
    (s.currentTime + 1).toInt = s.currentTime.toInt + 1 :=
  h.toInt_add (by decide)

theorem State.Fits.two {t : Thread} (h : s.Fits t 2) :
    (s.currentTime + 2).toInt = s.currentTime.toInt + 2 :=
  h.toInt_add (by decide)

/-! ## How far a customer has come -/

/-- The number of lines about the customer. -/
def State.stage (s : State) (c : Nat) : Nat :=
  match s.customer c with
  | .arriving => 0
  | .entering _ | .standing => 1
  | .sitting _ => 2
  | .waitingCake => if s.baking c then 4 else 3
  | .waitingDone => if c ∈ s.waitingPayment.contents then 5 else 6
  | .returned => 7

/-- What keeps the next line about the customer apart from the last one, at the time `t`. -/
def State.Due (s : State) (c : Nat) (t : Int) : Prop :=
  match s.customer c with
  | .arriving => False
  | .entering d | .sitting d => t + 1 ≤ d.toInt
  | .standing => t + 1 ≤ s.currentTime.toInt
  | .waitingCake =>
    if s.baking c = false then t ≤ (s.requestTime c).toInt
    else if s.readyToPay c = false then ∀ j d last, s.chef j = .baking c d last → t + 2 ≤ d.toInt
    else t + 2 ≤ s.currentTime.toInt
  | .waitingDone =>
    if c ∈ s.waitingPayment.contents then t ≤ (s.paymentTime c).toInt
    else if s.done c = false then ∀ j d last, s.chef j = .accepting c d last → t + 2 ≤ d.toInt
    else t + 2 ≤ s.currentTime.toInt
  | .returned => True

/-- **The lines about one customer.** -/
structure TraceOf (s : State) (c : Nat) : Prop where
  kinds : (s.linesOf c).map Line.kind = LineKind.all.take (s.stage c)
  apart : (s.linesOf c).IsChain Line.Follows
  due : ∀ l ∈ (s.linesOf c).getLast?, s.Due c l.time

/-- No line about the customer is printed. -/
theorem TraceOf.stay (h : TraceOf s c) (hlines : s'.linesOf c = s.linesOf c)
    (hstage : s'.stage c = s.stage c) (hdue : ∀ t, s.Due c t → s'.Due c t) : TraceOf s' c where
  kinds := by rw [hlines, hstage]; exact h.kinds
  apart := by rw [hlines]; exact h.apart
  due l hl := by
    rw [hlines] at hl
    exact hdue _ (h.due l hl)

/-- **A line about the customer is printed**, and it is the next one. -/
theorem TraceOf.print (h : TraceOf s c) (hlines : s'.linesOf c = s.linesOf c ++ [l])
    (hstage : LineKind.all.take (s'.stage c) = LineKind.all.take (s.stage c) ++ [l.kind])
    (hgap : ∀ t, s.Due c t → t + l.kind.gap ≤ l.time) (hdue : s'.Due c l.time) : TraceOf s' c where
  kinds := by rw [hlines, List.map_append, h.kinds, hstage]; rfl
  apart := by
    rw [hlines, List.isChain_append]
    refine ⟨h.apart, List.isChain_singleton l, fun l₁ hl₁ l₂ hl₂ => ?_⟩
    obtain rfl : l = l₂ := by simpa using hl₂
    exact hgap _ (h.due l₁ hl₁)
  due l' hl' := by
    rw [hlines, List.getLast?_concat] at hl'
    obtain rfl : l = l' := by simpa using hl'
    exact hdue

theorem linesOf_concat (hout : s'.out = s.out ++ [l]) (hl : l.about = c) :
    s'.linesOf c = s.linesOf c ++ [l] := by
  rw [State.linesOf, State.linesOf, hout, List.filter_append, List.filter_singleton,
    decide_eq_true hl]
  rfl

theorem linesOf_concat_ne (hout : s'.out = s.out ++ [l]) (hl : l.about ≠ c) :
    s'.linesOf c = s.linesOf c := by
  rw [State.linesOf, State.linesOf, hout, List.filter_append, List.filter_singleton,
    decide_eq_false hl]
  exact List.append_nil _

theorem linesOf_same (hout : s'.out = s.out) : s'.linesOf c = s.linesOf c := by
  rw [State.linesOf, State.linesOf, hout]

/-- What the lines about a customer depend on: nothing of it changes but the time. -/
structure Untouched (s s' : State) (c : Nat) : Prop where
  customer : s'.customer c = s.customer c
  time : s.currentTime.toInt ≤ s'.currentTime.toInt
  baking : s'.baking c = s.baking c
  ready : s'.readyToPay c = s.readyToPay c
  requestTime : s'.requestTime c = s.requestTime c
  queue : c ∈ s'.waitingPayment.contents ↔ c ∈ s.waitingPayment.contents
  paymentTime : s'.paymentTime c = s.paymentTime c
  done : s'.done c = s.done c
  bakers : ∀ j d last, s'.chef j = .baking c d last → s.chef j = .baking c d last
  acceptors : ∀ j d last, s'.chef j = .accepting c d last → s.chef j = .accepting c d last

theorem Untouched.stage (h : Untouched s s' c) : s'.stage c = s.stage c := by
  unfold State.stage
  rw [h.customer, h.baking]
  simp only [h.queue]

theorem Untouched.due (h : Untouched s s' c) (t : Int) (ht : s.Due c t) : s'.Due c t := by
  have htime := h.time
  unfold State.Due at ht ⊢
  rw [h.customer, h.baking, h.ready, h.requestTime, h.paymentTime, h.done]
  simp only [h.queue]
  cases hpc : s.customer c with
  | arriving | entering | sitting | returned =>
    rw [hpc] at ht
    exact ht
  | standing =>
    rw [hpc] at ht
    exact Int.le_trans ht htime
  | waitingCake =>
    rw [hpc] at ht
    dsimp only at ht ⊢
    split
    · next hb => rwa [if_pos hb] at ht
    · next hb =>
      rw [if_neg hb] at ht
      split
      · next hr =>
        rw [if_pos hr] at ht
        exact fun j d last hj => ht j d last (h.bakers j d last hj)
      · next hr =>
        rw [if_neg hr] at ht
        exact Int.le_trans ht htime
  | waitingDone =>
    rw [hpc] at ht
    dsimp only at ht ⊢
    split
    · next hq => rwa [if_pos hq] at ht
    · next hq =>
      rw [if_neg hq] at ht
      split
      · next hd =>
        rw [if_pos hd] at ht
        exact fun j d last hj => ht j d last (h.acceptors j d last hj)
      · next hd =>
        rw [if_neg hd] at ht
        exact Int.le_trans ht htime

theorem TraceOf.untouched (h : TraceOf s c) (hu : Untouched s s' c)
    (hlines : s'.linesOf c = s.linesOf c) :
    TraceOf s' c :=
  h.stay hlines hu.stage hu.due

/-! ## The control point of a customer that a chef works for -/

/-- A customer whose request is open waits for its cake. -/
theorem FlowInv.waitingCake (h : FlowInv n s) (hreq : s.requested c = true)
    (hready : s.readyToPay c = false) : s.customer c = .waitingCake := by
  have hasked := (h.view c).requested.mp hreq
  have hnot : (s.customer c).late = false := by
    by_contra hlate
    have := (h.view c).paid_ready ((h.view c).paid.mpr (by simpa [State.view] using hlate))
    rw [show (s.view c).ready = false from hready] at this
    cases this
  change (s.customer c).asked = true at hasked
  cases hpc : s.customer c with
  | waitingCake => rfl
  | arriving | entering | standing | sitting =>
    rw [hpc] at hasked
    cases hasked
  | waitingDone | returned =>
    rw [hpc] at hnot
    cases hnot

/-- A customer that has paid waits until its payment is accepted. -/
theorem FlowInv.waitingDone (h : FlowInv n s) (hpaid : s.paid c = true) (hdone : s.done c = false) :
    s.customer c = .waitingDone := by
  have hlate := (h.view c).paid.mp hpaid
  change (s.customer c).late = true at hlate
  cases hpc : s.customer c with
  | waitingDone => rfl
  | arriving | entering | standing | sitting | waitingCake =>
    rw [hpc] at hlate
    cases hlate
  | returned =>
    have := (h.view c).returned hpc
    rw [show (s.view c).done = false from hdone] at this
    cases this

/-! ## Steps -/

/-- The step of another customer. -/
theorem Untouched.of_customer {pc : CustomerPc} (hd : d ≠ c)
    (hcust : s'.customer = Function.update s.customer c pc) (htime : s'.currentTime = s.currentTime)
    (hbaking : s'.baking = s.baking) (hready : s'.readyToPay = s.readyToPay)
    (hreq : s'.requestTime d = s.requestTime d)
    (hqueue : d ∈ s'.waitingPayment.contents ↔ d ∈ s.waitingPayment.contents)
    (hpay : s'.paymentTime d = s.paymentTime d) (hdone : s'.done = s.done)
    (hchef : s'.chef = s.chef) : Untouched s s' d where
  customer := by rw [hcust, Function.update_of_ne hd]
  time := by rw [htime]
  baking := by rw [hbaking]
  ready := by rw [hready]
  requestTime := hreq
  queue := hqueue
  paymentTime := hpay
  done := by rw [hdone]
  bakers j t last hj := by rwa [hchef] at hj
  acceptors j t last hj := by rwa [hchef] at hj

/-- The step of a chef that works for another customer. -/
theorem Untouched.of_chef {pc : ChefPc} (hcust : s'.customer = s.customer)
    (htime : s'.currentTime = s.currentTime) (hbaking : s'.baking d = s.baking d)
    (hready : s'.readyToPay d = s.readyToPay d) (hreq : s'.requestTime = s.requestTime)
    (hqueue : d ∈ s'.waitingPayment.contents ↔ d ∈ s.waitingPayment.contents)
    (hpay : s'.paymentTime = s.paymentTime) (hdone : s'.done d = s.done d)
    (hchef : s'.chef = Function.update s.chef j pc) (hb : pc.bakesFor ≠ some d)
    (ha : pc.acceptsFor ≠ some d) : Untouched s s' d where
  customer := by rw [hcust]
  time := by rw [htime]
  baking := hbaking
  ready := hready
  requestTime := by rw [hreq]
  queue := hqueue
  paymentTime := by rw [hpay]
  done := hdone
  bakers i t last hi := by
    by_cases hij : i = j
    · rw [hchef, hij, Function.update_self] at hi
      rw [hi] at hb
      exact absurd rfl hb
    · rwa [hchef, Function.update_of_ne hij] at hi
  acceptors i t last hi := by
    by_cases hij : i = j
    · rw [hchef, hij, Function.update_self] at hi
      rw [hi] at ha
      exact absurd rfl ha
    · rwa [hchef, Function.update_of_ne hij] at hi

/-- A chef starts to bake: the line about the bake comes a second after the request. -/
theorem TraceOf.startBake {last : Int32} (h : TraceOf s c) (hflow : FlowInv n s)
    (hsum : (s.currentTime + 2).toInt = s.currentTime.toInt + 2) (hwants : s.wants c = true)
    (hout : s'.out = s.out ++ [.bakes s.currentTime j c]) (hcust : s'.customer = s.customer)
    (hbaking : s'.baking c = true) (hready : s'.readyToPay = s.readyToPay)
    (hchef : s'.chef = Function.update s.chef j (.baking c (s.currentTime + 2) last)) :
    TraceOf s' c := by
  simp only [State.wants, Bool.and_eq_true, Bool.not_eq_true', decide_eq_true_eq] at hwants
  obtain ⟨⟨⟨hreq, hnot⟩, hnr⟩, htime⟩ := hwants
  have hpc := hflow.waitingCake hreq hnr
  refine h.print (linesOf_concat hout rfl) ?_ (fun t ht => ?_) ?_
  · rw [State.stage, State.stage, hcust, hpc]
    dsimp only
    rw [hbaking, hnot]
    rfl
  · rw [State.Due, hpc] at ht
    dsimp only at ht
    rw [if_pos hnot] at ht
    rw [Int32.lt_iff_toInt_lt] at htime
    show t + 1 ≤ s.currentTime.toInt
    omega
  · show s'.Due c s.currentTime.toInt
    rw [State.Due, hcust, hpc]
    dsimp only
    rw [hbaking, hready, hnr, if_neg (by decide), if_pos rfl]
    intro i d l hi
    by_cases hij : i = j
    · rw [hchef, hij, Function.update_self] at hi
      cases hi
      exact Int.le_of_eq hsum.symm
    · -- no other chef bakes for this customer
      rw [hchef, Function.update_of_ne hij] at hi
      have hin : s.InOven c := hflow.bakers.busy_of (j := i) (by rw [hi]; rfl)
      rw [hin.1] at hnot
      cases hnot

/-- A chef is done with a cake: two seconds have passed since the line about the bake. -/
theorem TraceOf.endBake {bakeDone last : Int32} (h : TraceOf s c) (hflow : FlowInv n s)
    (hj : s.chef j = .baking c bakeDone last) (hover : bakeDone ≤ s.currentTime)
    (hout : s'.out = s.out)
    (hcust : s'.customer = s.customer) (hbaking : s'.baking = s.baking)
    (hready : s'.readyToPay c = true) (htime : s'.currentTime = s.currentTime) : TraceOf s' c := by
  have hin : s.InOven c := hflow.bakers.busy_of (j := j) (by rw [hj]; rfl)
  have hpc := hflow.waitingCake ((hflow.view c).baking hin.1) hin.2
  refine h.stay (linesOf_same hout) ?_ fun t ht => ?_
  · rw [State.stage, State.stage, hcust, hpc, hbaking]
  · rw [State.Due, hpc] at ht
    dsimp only at ht
    rw [hin.1, hin.2, if_neg (by decide), if_pos rfl] at ht
    have hafter := ht j bakeDone last hj
    rw [Int32.le_iff_toInt_le] at hover
    rw [State.Due, hcust, hpc]
    dsimp only
    rw [hbaking, hin.1, hready, if_neg (by decide), if_neg (by decide), htime]
    omega

/-- A chef starts to accept a payment: the line about it comes a second after the one about the
payment. -/
theorem TraceOf.startAccept {last : Int32} (h : TraceOf s c) (hflow : FlowInv n s)
    (hsum : (s.currentTime + 2).toInt = s.currentTime.toInt + 2)
    (hmem : c ∈ s.waitingPayment.contents) (hgone : c ∉ s'.waitingPayment.contents)
    (hearlier : s.paymentTime c < s.currentTime)
    (hout : s'.out = s.out ++ [.accepts s.currentTime j c])
    (hcust : s'.customer = s.customer) (hdone : s'.done = s.done)
    (hchef : s'.chef = Function.update s.chef j (.accepting c (s.currentTime + 2) last)) :
    TraceOf s' c := by
  obtain ⟨hpaid, hnd⟩ := hflow.payers c hmem
  have hpc := hflow.waitingDone hpaid hnd
  refine h.print (linesOf_concat hout rfl) ?_ (fun t ht => ?_) ?_
  · rw [State.stage, State.stage, hcust, hpc]
    dsimp only
    rw [if_pos hmem, if_neg hgone]
    rfl
  · rw [State.Due, hpc] at ht
    dsimp only at ht
    rw [if_pos hmem] at ht
    rw [Int32.lt_iff_toInt_lt] at hearlier
    show t + 1 ≤ s.currentTime.toInt
    omega
  · show s'.Due c s.currentTime.toInt
    rw [State.Due, hcust, hpc]
    dsimp only
    rw [if_neg hgone, hdone, if_pos hnd]
    intro i d l hi
    by_cases hij : i = j
    · rw [hchef, hij, Function.update_self] at hi
      cases hi
      exact Int.le_of_eq hsum.symm
    · -- no other chef accepts this payment, since it was in the queue
      rw [hchef, Function.update_of_ne hij] at hi
      have hat : s.AtCashier c := hflow.acceptors.busy_of (j := i) (by rw [hi]; rfl)
      exact absurd hmem hat.2.1

/-- A chef is done with a payment: two seconds have passed since the line about it. -/
theorem TraceOf.endAccept {doneTime last : Int32} (h : TraceOf s c) (hflow : FlowInv n s)
    (hj : s.chef j = .accepting c doneTime last) (hover : doneTime ≤ s.currentTime)
    (hout : s'.out = s.out)
    (hcust : s'.customer = s.customer) (hqueue : s'.waitingPayment = s.waitingPayment)
    (hdone : s'.done c = true) (htime : s'.currentTime = s.currentTime) : TraceOf s' c := by
  have hat : s.AtCashier c := hflow.acceptors.busy_of (j := j) (by rw [hj]; rfl)
  have hpc := hflow.waitingDone hat.1 hat.2.2
  refine h.stay (linesOf_same hout) ?_ fun t ht => ?_
  · rw [State.stage, State.stage, hcust, hpc, hqueue]
  · rw [State.Due, hpc] at ht
    dsimp only at ht
    rw [if_neg hat.2.1, if_pos hat.2.2] at ht
    have hafter := ht j doneTime last hj
    rw [Int32.le_iff_toInt_le] at hover
    rw [State.Due, hcust, hpc]
    dsimp only
    rw [hqueue, if_neg hat.2.1, hdone, if_neg (by decide), htime]
    omega

/-- A customer prints its next line, with the control points before and after it. -/
theorem TraceOf.walk {pc : CustomerPc} (h : TraceOf s c)
    (hcust : s'.customer = Function.update s.customer c pc) (hout : s'.out = s.out ++ [l])
    (habout : l.about = c)
    (hstage : s'.customer c = pc → LineKind.all.take (s'.stage c) = LineKind.all.take (s.stage c) ++
      [l.kind])
    (hgap : ∀ t, s.Due c t → t + l.kind.gap ≤ l.time)
    (hdue : s'.customer c = pc → s'.Due c l.time) : TraceOf s' c := by
  have hpc : s'.customer c = pc := by rw [hcust, Function.update_self]
  exact h.print (linesOf_concat hout habout) (hstage hpc) hgap (hdue hpc)

/-- A customer that stands prints nothing; its entry is over. -/
theorem TraceOf.stand {enterDone : Int32} (h : TraceOf s c)
    (hpc : s.customer c = .entering enterDone)
    (hover : enterDone ≤ s.currentTime) (hout : s'.out = s.out)
    (htime : s'.currentTime = s.currentTime) (hpc' : s'.customer c = .standing) : TraceOf s' c := by
  refine h.stay (linesOf_same hout) ?_ fun t ht => ?_
  · rw [State.stage, State.stage, hpc', hpc]
  · rw [State.Due, hpc] at ht
    rw [State.Due, hpc', htime]
    exact Int.le_trans ht (Int32.le_iff_toInt_le.mp hover)

/-- A customer enters: its entry takes a second. -/
theorem TraceOf.enter (h : TraceOf s c) (hpc : s.customer c = .arriving)
    (hsum : (s.currentTime + 1).toInt = s.currentTime.toInt + 1)
    (hcust : s'.customer = Function.update s.customer c (.entering (s.currentTime + 1)))
    (hout : s'.out = s.out ++ [.enters s.currentTime c]) : TraceOf s' c := by
  refine h.walk hcust hout rfl (fun hpc' => ?_) (fun t ht => ?_) fun hpc' => ?_
  · rw [State.stage, State.stage, hpc', hpc]
    rfl
  · rw [State.Due, hpc] at ht
    exact ht.elim
  · rw [State.Due, hpc']
    exact Int.le_of_eq hsum.symm

/-- A customer that has entered sits down, at once or after it has stood. -/
theorem TraceOf.sit (h : TraceOf s c) (hstage : s.stage c = 1)
    (hgap : ∀ t, s.Due c t → t + 1 ≤ s.currentTime.toInt)
    (hsum : (s.currentTime + 1).toInt = s.currentTime.toInt + 1)
    (hcust : s'.customer = Function.update s.customer c (.sitting (s.currentTime + 1)))
    (hout : s'.out = s.out ++ [.sits s.currentTime c]) : TraceOf s' c := by
  refine h.walk hcust hout rfl (fun hpc' => ?_) hgap fun hpc' => ?_
  · rw [hstage, State.stage, hpc']
    rfl
  · rw [State.Due, hpc']
    exact Int.le_of_eq hsum.symm

/-- A customer requests its cake: it has sat for a second, and nobody bakes for it. -/
theorem TraceOf.request {sitDone : Int32} (h : TraceOf s c) (hpc : s.customer c = .sitting sitDone)
    (hover : sitDone ≤ s.currentTime) (hnot : s.baking c = false)
    (hcust : s'.customer = Function.update s.customer c .waitingCake)
    (hout : s'.out = s.out ++ [.requests s.currentTime c]) (hbaking : s'.baking = s.baking)
    (htime : s'.requestTime c = s.currentTime) : TraceOf s' c := by
  refine h.walk hcust hout rfl (fun hpc' => ?_) (fun t ht => ?_) fun hpc' => ?_
  · rw [State.stage, State.stage, hpc', hpc]
    dsimp only
    rw [hbaking, hnot]
    rfl
  · rw [State.Due, hpc] at ht
    exact Int.le_trans ht (Int32.le_iff_toInt_le.mp hover)
  · rw [State.Due, hpc']
    dsimp only
    rw [hbaking, if_pos hnot, htime]
    exact Int.le_refl _

/-- A customer pays for a cake that is ready. -/
theorem TraceOf.pay (h : TraceOf s c) (hpc : s.customer c = .waitingCake)
    (hbake : s.baking c = true)
    (hready : s.readyToPay c = true)
    (hcust : s'.customer = Function.update s.customer c .waitingDone)
    (hout : s'.out = s.out ++ [.pays s.currentTime c]) (hmem : c ∈ s'.waitingPayment.contents)
    (htime : s'.paymentTime c = s.currentTime) : TraceOf s' c := by
  refine h.walk hcust hout rfl (fun hpc' => ?_) (fun t ht => ?_) fun hpc' => ?_
  · rw [State.stage, State.stage, hpc', hpc]
    dsimp only
    rw [if_pos hmem, if_pos hbake]
    rfl
  · rw [State.Due, hpc] at ht
    dsimp only at ht
    rw [hbake, hready, if_neg (by decide), if_neg (by decide)] at ht
    exact ht
  · rw [State.Due, hpc']
    dsimp only
    rw [if_pos hmem, htime]
    exact Int.le_refl _

/-- A customer whose payment was accepted leaves. -/
theorem TraceOf.leave (h : TraceOf s c) (hflow : FlowInv n s) (hpc : s.customer c = .waitingDone)
    (hdone : s.done c = true) (hcust : s'.customer = Function.update s.customer c .returned)
    (hout : s'.out = s.out ++ [.leaves s.currentTime c]) : TraceOf s' c := by
  have hnot : c ∉ s.waitingPayment.contents := fun hmem => by
    rw [(hflow.payers c hmem).2] at hdone
    cases hdone
  refine h.walk hcust hout rfl (fun hpc' => ?_) (fun t ht => ?_) fun hpc' => ?_
  · rw [State.stage, State.stage, hpc', hpc]
    dsimp only
    rw [if_neg hnot]
    rfl
  · rw [State.Due, hpc] at ht
    dsimp only at ht
    rw [if_neg hnot, hdone, if_neg (by decide)] at ht
    exact ht
  · rw [State.Due, hpc']
    trivial

/-- A step of the customer `c` keeps the lines about every customer, when it keeps those about
`c`. -/
theorem TraceOf.of_customer {pc : CustomerPc} (h : ∀ c, TraceOf s c) (hc : TraceOf s' c)
    (hothers : ∀ d, d ≠ c → s'.linesOf d = s.linesOf d)
    (hcust : s'.customer = Function.update s.customer c pc) (htime : s'.currentTime = s.currentTime)
    (hbaking : s'.baking = s.baking) (hready : s'.readyToPay = s.readyToPay)
    (hreq : ∀ d, d ≠ c → s'.requestTime d = s.requestTime d)
    (hqueue : ∀ d, d ≠ c → (d ∈ s'.waitingPayment.contents ↔ d ∈ s.waitingPayment.contents))
    (hpay : ∀ d, d ≠ c → s'.paymentTime d = s.paymentTime d) (hdone : s'.done = s.done)
    (hchef : s'.chef = s.chef) : TraceOf s' d := by
  by_cases hd : d = c
  · rw [hd]
    exact hc
  · exact (h d).untouched (.of_customer hd hcust htime hbaking hready (hreq d hd) (hqueue d hd)
      (hpay d hd) hdone hchef) (hothers d hd)

/-- **Every change keeps the lines about every customer**, when no sum overflows. -/
theorem TraceOf.change (h : ∀ c, TraceOf s c) (hb : BakeryInv input s)
    (hn : input.length ≤ maxCustomers) (hch : Change input s.Fits s s') (d : Nat) :
    TraceOf s' d := by
  have hflow := hb.flow
  cases hch with
  | pause | setTimer | setMain | endMain =>
    exact (h d).untouched ⟨rfl, Int.le_refl _, rfl, rfl, rfl, Iff.rfl, rfl, rfl, fun _ _ _ hj => hj,
      fun _ _ _ hj => hj⟩ (linesOf_same rfl)
  | tick sum =>
    refine (h d).untouched ⟨rfl, ?_, rfl, rfl, rfl, Iff.rfl, rfl, rfl, fun _ _ _ hj => hj,
      fun _ _ _ hj => hj⟩ (linesOf_same rfl)
    show s.currentTime.toInt ≤ (s.currentTime + 1).toInt
    rw [sum.one]
    exact Int.le_of_lt (Int.lt_succ _)
  | refuse known arriving full =>
    have := hb.count.room hflow hn (List.getElem?_eq_some_iff.mp known).1 arriving
    omega
  | enter known arriving arrived sum =>
    exact .of_customer h ((h _).enter arriving sum.one rfl rfl)
      (fun _ hd => linesOf_concat_ne rfl (Ne.symm hd)) rfl rfl rfl rfl (fun _ _ => rfl)
      (fun _ _ => Iff.rfl) (fun _ _ => rfl) rfl rfl
  | sit known entering elapsed room sum =>
    refine .of_customer h ((h _).sit (by rw [State.stage, entering]) (fun t ht => ?_)
      sum.one rfl rfl)
      (fun _ hd => linesOf_concat_ne rfl (Ne.symm hd)) rfl rfl rfl rfl (fun _ _ => rfl)
      (fun _ _ => Iff.rfl) (fun _ _ => rfl) rfl rfl
    rw [State.Due, entering] at ht
    exact Int.le_trans ht (Int32.le_iff_toInt_le.mp elapsed)
  | stand known entering elapsed full =>
    exact .of_customer h ((h _).stand entering elapsed rfl rfl (Function.update_self ..))
      (fun _ _ => linesOf_same rfl) rfl rfl rfl rfl (fun _ _ => rfl) (fun _ _ => Iff.rfl)
      (fun _ _ => rfl) rfl rfl
  | sitDown known standing seated sum =>
    refine .of_customer h ((h _).sit (by rw [State.stage, standing]) (fun t ht => ?_)
      sum.one rfl rfl)
      (fun _ hd => linesOf_concat_ne rfl (Ne.symm hd)) rfl rfl rfl rfl (fun _ _ => rfl)
      (fun _ _ => Iff.rfl) (fun _ _ => rfl) rfl rfl
    rw [State.Due, standing] at ht
    exact ht
  | request known sitting elapsed =>
    rename_i c sitDone waits
    -- nobody bakes before the request
    have hnot : s.baking c = false := by
      by_contra hne
      have := (hflow.view c).requested.mp ((hflow.view c).baking (by simpa [State.view] using hne))
      rw [show (s.view c).pc = .sitting sitDone from sitting] at this
      cases this
    exact .of_customer h ((h c).request sitting elapsed hnot rfl rfl rfl (Function.update_self ..))
      (fun _ hd => linesOf_concat_ne rfl (Ne.symm hd)) rfl rfl rfl rfl
      (fun _ hd => Function.update_of_ne hd ..) (fun _ _ => Iff.rfl) (fun _ _ => rfl) rfl rfl
  | pay known waiting ready =>
    rename_i c waits
    have hqueue : ∀ d, d ∈ (s.waitingPayment.push c).contents ↔ d ∈ s.waitingPayment.contents ∨
      d = c :=
      fun d => by rw [ArrayQueue.contents_push hb.inv.pay.le, List.mem_append, List.mem_singleton]
    exact .of_customer h ((h c).pay waiting ((hflow.view c).ready ready) ready rfl rfl
      ((hqueue c).mpr (Or.inr rfl)) (Function.update_self ..))
      (fun _ hd => linesOf_concat_ne rfl (Ne.symm hd)) rfl rfl rfl rfl (fun _ _ => rfl)
      (fun d hd => (hqueue d).trans (or_iff_left hd)) (fun _ hd => Function.update_of_ne hd ..)
      rfl rfl
  | leave known waiting done nobody last | leaveSeat known waiting done stands last =>
    exact .of_customer h ((h _).leave hflow waiting done rfl rfl)
      (fun _ hd => linesOf_concat_ne rfl (Ne.symm hd)) rfl rfl rfl rfl (fun _ _ => rfl)
      (fun _ _ => Iff.rfl) (fun _ _ => rfl) rfl rfl
  | chefIdle before after =>
    obtain ⟨hb', ha'⟩ := ChefPc.not_busy after
    exact (h d).untouched (.of_chef rfl rfl rfl rfl rfl Iff.rfl rfl rfl rfl (by rw [hb']; rintro ⟨⟩)
      (by rw [ha']; rintro ⟨⟩)) (linesOf_same rfl)
  | startAccept looking queue free earlier sum =>
    rename_i j last waits
    have hcont := ArrayQueue.contents_pop queue
    have hnd := hb.inv.pay.nodup
    rw [hcont, List.nodup_cons] at hnd
    by_cases hd : d = s.waitingPayment.front
    · rw [hd]
      exact (h _).startAccept hflow sum.two (ArrayQueue.front_mem queue) hnd.1 earlier
        rfl rfl rfl rfl
    · refine (h d).untouched (.of_chef rfl rfl rfl rfl rfl ?_ rfl rfl rfl (by rintro ⟨⟩) ?_)
        (linesOf_concat_ne rfl (Ne.symm hd))
      · rw [hcont, List.mem_cons]
        simp [hd]
      · intro heq
        exact hd (Option.some.inj heq).symm
  | endAccept accepting elapsed =>
    rename_i j idx doneTime last waits
    by_cases hd : d = idx
    · subst hd
      exact (h d).endAccept hflow accepting elapsed rfl rfl rfl (Function.update_self ..) rfl
    · exact (h d).untouched (.of_chef rfl rfl rfl rfl rfl Iff.rfl rfl
        (Function.update_of_ne hd ..) rfl (by rintro ⟨⟩) (by rintro ⟨⟩)) (linesOf_same rfl)
  | startBake looking noPayment found sum =>
    rename_i j i last waits
    obtain ⟨-, -, hwants⟩ := ArrayQueue.findIdx_eq_some found
    by_cases hd : d = s.onSofa.data i
    · rw [hd]
      exact (h _).startBake hflow sum.two hwants rfl rfl (Function.update_self ..) rfl rfl
    · refine (h d).untouched (.of_chef rfl rfl (Function.update_of_ne hd ..) rfl rfl
        Iff.rfl rfl rfl rfl (fun heq => ?_) (by rintro ⟨⟩)) (linesOf_concat_ne rfl (Ne.symm hd))
      exact hd (Option.some.inj heq).symm
  | endBake baking elapsed =>
    rename_i j idx bakeDone last waits
    by_cases hd : d = idx
    · subst hd
      exact (h d).endBake hflow baking elapsed rfl rfl rfl (Function.update_self ..) rfl
    · exact (h d).untouched (.of_chef rfl rfl rfl (Function.update_of_ne hd ..) rfl
        Iff.rfl rfl rfl rfl (by rintro ⟨⟩) (by rintro ⟨⟩)) (linesOf_same rfl)

/-! ## The whole output -/

/-- **The output as a whole**: its times do not decrease, none of them is in the future, and nobody
enters before it arrives. -/
structure OutInv (input : List CustomerInput) (s : State) : Prop where
  sorted : s.out.Pairwise fun l l' => l.time ≤ l'.time
  past : ∀ l ∈ s.out, l.time ≤ s.currentTime.toInt
  arrived : ∀ t c ci, .enters t c ∈ s.out → input[c]? = some ci → ci.arrivalTime ≤ t

/-- A step prints nothing, or a line with the current time. -/
theorem Change.prints (hch : Change input s.Fits s s') :
    (s'.out = s.out ∧ s.currentTime.toInt ≤ s'.currentTime.toInt) ∨
    ∃ l, s'.out = s.out ++ [l] ∧ s'.currentTime = s.currentTime ∧ l.time = s.currentTime.toInt ∧
      ∀ t c ci, l = .enters t c → input[c]? = some ci → ci.arrivalTime ≤ t := by
  cases hch with
  | pause | setTimer | setMain | endMain | refuse | chefIdle | stand | endAccept | endBake =>
    exact Or.inl ⟨rfl, Int.le_refl _⟩
  | tick sum =>
    refine Or.inl ⟨rfl, ?_⟩
    show s.currentTime.toInt ≤ (s.currentTime + 1).toInt
    rw [sum.one]
    exact Int.le_of_lt (Int.lt_succ _)
  | sit | sitDown | request | pay | leave | leaveSeat | startAccept | startBake =>
    exact Or.inr ⟨_, rfl, rfl, rfl, fun t c ci hl => by cases hl⟩
  | enter known arriving arrived sum =>
    refine Or.inr ⟨_, rfl, rfl, rfl, fun t c ci hl hci => ?_⟩
    cases hl
    obtain rfl := Option.some.inj (known.symm.trans hci)
    exact arrived

theorem OutInv.change (h : OutInv input s) (hch : Change input s.Fits s s') : OutInv input s' := by
  rcases hch.prints with ⟨hout, htime⟩ | ⟨l, hout, htime, hl, harr⟩
  · refine ⟨by rw [hout]; exact h.sorted, fun l hl => ?_, by rw [hout]; exact h.arrived⟩
    rw [hout] at hl
    exact Int.le_trans (h.past l hl) htime
  · refine ⟨?_, fun l' hl' => ?_, fun t c ci hmem hci => ?_⟩
    · rw [hout, List.pairwise_append]
      refine ⟨h.sorted, List.pairwise_singleton _ l, fun l₁ hl₁ l₂ hl₂ => ?_⟩
      rw [List.mem_singleton.mp hl₂, hl]
      exact h.past l₁ hl₁
    · rw [htime]
      rw [hout] at hl'
      rcases List.mem_append.mp hl' with hl' | hl'
      · exact h.past l' hl'
      · rw [List.mem_singleton.mp hl', hl]
    · rw [hout] at hmem
      rcases List.mem_append.mp hmem with hmem | hmem
      · exact h.arrived t c ci hmem hci
      · exact harr t c ci (List.mem_singleton.mp hmem).symm hci

/-- The lines of a run in which no sum overflows. -/
theorem trace_of_meets {es : List Event} (hn : input.length ≤ maxCustomers)
    (hrun : Run.Meets (Step input) (SumFits input) (init input) es s) :
    (∀ c, TraceOf s c) ∧ OutInv input s := by
  have hstep : ∀ s e s', (BakeryInv input s ∧ (∀ c, TraceOf s c) ∧ OutInv input s) →
      SumFits input s e → Step input s e s' →
      BakeryInv input s' ∧ (∀ c, TraceOf s' c) ∧ OutInv input s' := by
    rintro s e s' ⟨hb, htrace, hout⟩ hfits hs
    have hch := hb.inv.change_of hfits hs
    exact ⟨hb.step hn hs, TraceOf.change htrace hb hn hch, hout.change hch⟩
  have hall := Run.invariant_of_meets hstep hrun
    ⟨BakeryInv.init input, fun c => ⟨rfl, List.isChain_nil, fun l hl => by cases hl⟩,
      ⟨List.Pairwise.nil, fun l hl => absurd hl List.not_mem_nil,
        fun t c ci hl => absurd hl List.not_mem_nil⟩⟩
  exact hall.2

/-- **Every trace respects the timing rules.** In every run in which no sum overflows, the lines
about one customer are the first ones of: enters, sits, requests cake, bakes for, pays, accepts
payment for, leaves, each once and in this order; a customer enters at its arrival time or later,
and each of the other lines comes at least as much later than the one before it as `LineKind.gap`
says; and the times do not decrease along the whole output. -/
theorem timing_rules {es : List Event} (hn : input.length ≤ maxCustomers)
    (hrun : Run.Meets (Step input) (SumFits input) (init input) es s) :
    (∀ c, (s.linesOf c).map Line.kind <+: LineKind.all) ∧
    (∀ t c ci, .enters t c ∈ s.out → input[c]? = some ci → ci.arrivalTime ≤ t) ∧
    (∀ c, (s.linesOf c).IsChain fun l l' => l.time + l'.kind.gap ≤ l'.time) ∧
    s.out.Pairwise fun l l' => l.time ≤ l'.time := by
  obtain ⟨htrace, hout⟩ := trace_of_meets hn hrun
  refine ⟨fun c => ?_, hout.arrived, fun c => (htrace c).apart, hout.sorted⟩
  rw [(htrace c).kinds]
  exact List.take_prefix _ _

/-- A thread runs, unless the clock is close to the last `int`. -/
def afterEarly (input : List CustomerInput) (s : State) (t : Thread) : Option State :=
  if s.currentTime.toInt ≤ 2147483645 then afterThread input s t else none

/-- A thread adds two seconds at most. -/
theorem State.adds_le {t : Thread} {k : Int32} (h : s.adds input t = some k) : k.toInt ≤ 2 := by
  have hsum : ∀ {p : Prop} [Decidable p] {m : Int32}, m.toInt ≤ 2 → (if p then some m
    else none) = some k → k.toInt ≤ 2 := by
    intro p _ m hm hk
    rw [← Option.some.inj (Option.ite_none_right_eq_some.mp hk).2]
    exact hm
  cases t with
  | timer => exact hsum (by decide) h
  | main => cases h
  | customer c =>
    dsimp only [State.adds] at h
    generalize s.customer c = pc at h
    cases pc with
    | arriving => exact hsum (by decide) h
    | entering enterDone => exact hsum (by decide) h
    | standing => exact hsum (by decide) h
    | _ => cases h
  | chef j =>
    dsimp only [State.adds] at h
    generalize s.chef j = pc at h
    cases pc with
    | looking lastAction => exact hsum (by decide) (Option.ite_none_left_eq_some.mp h).2
    | _ => cases h

theorem afterEarly_spec {t : Thread} (h : afterEarly input s t = some s') :
    SumFits input s (.run t) ∧ afterThread input s t = some s' := by
  unfold afterEarly at h
  split at h
  · next hearly =>
    refine ⟨fun u k _ hadds => ?_, h⟩
    have hle := State.adds_le hadds
    rw [State.Fits, Int32.toInt_maxValue]
    omega
  · cases h

/-- The run to the end of the first customer: a chef bakes for the fourth one, the payment of the
second one is made, and the fifth gets the seat. -/
def firstLeaves : List Thread :=
  toFirstPayment ++ ([.timer, .chef 0, .chef 1, .timer, .timer, .chef 0, .customer 1, .chef 2,
    .chef 2, .customer 0, .customer 4] : List Thread)

/-- With six customers, after the first one has left, the lines come in order and far enough
apart. -/
theorem timing_rules_six : ∃ es s,
    Run.Meets (Step sixCustomers) (SumFits sixCustomers) (init sixCustomers) es s ∧
    s.linesOf 0 = [.enters 0 0, .sits 1 0, .requests 2 0, .bakes 3 0 0, .pays 5 0, .accepts 6 0 0,
      .leaves 8 0] ∧
    s.linesOf 4 = [.enters 0 4, .sits 8 4] ∧
    (∀ c, (s.linesOf c).IsChain fun l l' => l.time + l'.kind.gap ≤ l'.time) ∧
    s.out.Pairwise fun l l' => l.time ≤ l'.time := by
  obtain ⟨s, hs⟩ : ∃ s,
    Run.after (afterEarly sixCustomers) firstLeaves (init sixCustomers) = some s :=
    Option.isSome_iff_exists.mp (by decide +kernel)
  obtain ⟨es, hmeets⟩ := meets_of_afterThread (fun _ _ _ h => afterEarly_spec h) hs
  obtain ⟨-, -, hapart, hsorted⟩ := timing_rules (by decide) hmeets
  have hlines : ∀ c, (Run.after (afterEarly sixCustomers) firstLeaves (init sixCustomers)).map
      (·.linesOf c) = some (s.linesOf c) := fun c => by rw [hs]; rfl
  refine ⟨es, s, hmeets, Option.some.inj ((hlines 0).symm.trans ?_),
    Option.some.inj ((hlines 4).symm.trans ?_), hapart, hsorted⟩
  · decide +kernel
  · decide +kernel

/-- One customer, that arrives at the last `int`. -/
def lastSecond : List CustomerInput := [⟨1, 2147483647⟩]

/-- **At the last `int`** a customer enters and sits at the same time: the end of its entry
overflows. -/
theorem timing_rules_overflow : ∃ s, Reachable lastSecond s ∧
    s.out = [.enters 2147483647 0, .sits 2147483647 0, .requests 2147483647 0] ∧
    ¬ (s.linesOf 0).IsChain fun l l' => l.time + l'.kind.gap ≤ l'.time := by
  have hafter : ∀ ts, ts = [Thread.timer, .customer 0, .customer 0, .customer 0] →
      (Run.after (afterThread lastSecond) ts (init lastSecond)).map (·.out) =
        some [.enters 2147483647 0, .sits 2147483647 0, .requests 2147483647 0] := by
    rintro _ rfl
    decide +kernel
  obtain ⟨s, hs, hout⟩ := Option.map_eq_some_iff.mp (hafter _ rfl)
  refine ⟨s, reachable_of_after (by decide) hs, hout, fun hchain => ?_⟩
  rw [State.linesOf, hout] at hchain
  revert hchain
  decide +kernel

end Bakery
