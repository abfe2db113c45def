import Mathlib.Algebra.BigOperators.Fin
import Mathlib.Algebra.Order.BigOperators.Group.Finset
import Mathlib.Tactic.FinCases
import OsnMp2.Bakery.Model

/-!
# No request is lost and none is served twice

The queue of the sofa holds exactly the customers that are seated and that no chef has picked; a
chef that takes a customer off the queue bakes for it in the same step; and each customer is baked
for, pays and has its payment accepted at most once.

A chef takes the request off the queue before it tests whether an oven and a chef are free. That
this test never fails rests on a count: `chefs_idle` is the number of chefs outside the two
timed waits, and `ovens_used` the number of chefs inside a bake, so a chef that makes the test
is one of the idle ones.

## Main definitions

* `SofaInv`: the sofa queue, the standing queue and the cakes
* `PayInv`: the payments
* `ChefInv`: the two counters of the chefs
* `Picked`: a chef has started to bake for the customer

## Main results

* `customerStep_cases`, `ChefInv.chefMove`: what a step of a customer or a chef can do
* `Inv.step`: every step keeps the invariants
* `requests_served`: no request is lost and none is served twice
-/

namespace Bakery

variable {input : List CustomerInput} {s s' : State} {c d : Nat} {j : Fin maxChefs}

/-! ## Lines about a customer -/

/-- The line says that a chef bakes for `c`. -/
def Line.isBake (c : Nat) : Line → Bool
  | .bakes _ _ d => d == c
  | _ => false

/-- The line says that `c` pays. -/
def Line.isPay (c : Nat) : Line → Bool
  | .pays _ d => d == c
  | _ => false

/-- The line says that a chef accepts the payment of `c`. -/
def Line.isAccept (c : Nat) : Line → Bool
  | .accepts _ _ d => d == c
  | _ => false

/-- A chef has picked the customer: it has started to bake for it. -/
def Picked (s : State) (c : Nat) : Prop := ∃ time j, Line.bakes time j c ∈ s.out

theorem picked_iff : Picked s c ↔ 0 < s.out.countP (Line.isBake c) := by
  rw [List.countP_pos_iff]
  constructor
  · rintro ⟨time, j, h⟩
    exact ⟨_, h, by simp [Line.isBake]⟩
  · rintro ⟨l, hl, hb⟩
    cases l with
    | bakes time j d =>
      obtain rfl : d = c := by simpa [Line.isBake] using hb
      exact ⟨time, j, hl⟩
    | enters | sits | requests | pays | accepts | leaves => cases hb

/-! ## The sofa, the standing queue and the cakes -/

/-- The customer has not tried to sit yet. -/
def CustomerPc.early : CustomerPc → Bool
  | .arriving | .entering _ => true
  | _ => false

/-- **The invariant of the sofa**: its queue holds the customers that are seated and not baked for,
the standing queue customers that wait for a seat, and a cake is baked once. -/
structure SofaInv (s : State) : Prop where
  sofa_le : s.onSofa.head ≤ s.onSofa.tail
  sofa_nodup : s.onSofa.contents.Nodup
  mem_sofa : ∀ c, c ∈ s.onSofa.contents ↔ s.seated c = true ∧ s.baking c = false
  standing_le : s.standing.head ≤ s.standing.tail
  standing_nodup : s.standing.contents.Nodup
  standing_mem : ∀ c ∈ s.standing.contents, s.customer c = .standing ∧ s.seated c = false
  early : ∀ c, (s.customer c).early = true → s.seated c = false
  baking_seated : ∀ c, s.baking c = true → s.seated c = true
  bakes : ∀ c, s.out.countP (Line.isBake c) = if s.baking c then 1 else 0

/-- What the invariant of the sofa reads. -/
structure SameSofa (s s' : State) : Prop where
  onSofa : s'.onSofa = s.onSofa
  standing : s'.standing = s.standing
  seated : s'.seated = s.seated
  baking : s'.baking = s.baking
  bakes : ∀ c, s'.out.countP (Line.isBake c) = s.out.countP (Line.isBake c)

/-- A step that only moves customers, none of them out of the standing queue or back to its
start. -/
theorem SofaInv.of_same (h : SofaInv s) (hs : SameSofa s s')
    (hpc : ∀ c, s'.customer c = s.customer c ∨
      (s'.customer c).early = true ∧ (s.customer c).early = true ∨
      (s'.customer c).early = false ∧ (s.customer c ≠ .standing ∨ s.seated c = true)) :
      SofaInv s' where
  sofa_le := by rw [hs.onSofa]; exact h.sofa_le
  sofa_nodup := by rw [hs.onSofa]; exact h.sofa_nodup
  mem_sofa c := by rw [hs.onSofa, hs.seated, hs.baking]; exact h.mem_sofa c
  standing_le := by rw [hs.standing]; exact h.standing_le
  standing_nodup := by rw [hs.standing]; exact h.standing_nodup
  standing_mem c hc := by
    rw [hs.standing] at hc
    obtain ⟨hst, hse⟩ := h.standing_mem c hc
    rw [hs.seated]
    refine ⟨?_, hse⟩
    rcases hpc c with heq | ⟨-, he⟩ | ⟨-, hne | hse'⟩
    · exact heq.trans hst
    · rw [hst] at he
      cases he
    · exact absurd hst hne
    · rw [hse] at hse'
      cases hse'
  early c hc := by
    rw [hs.seated]
    rcases hpc c with heq | ⟨-, he⟩ | ⟨hn, -⟩
    · exact h.early c (heq ▸ hc)
    · exact h.early c he
    · rw [hc] at hn
      cases hn
  baking_seated c := by rw [hs.baking, hs.seated]; exact h.baking_seated c
  bakes c := by rw [hs.bakes, hs.baking]; exact h.bakes c

/-- **A customer gets a seat**: one that is not seated joins the sofa queue. -/
theorem SofaInv.seat (h : SofaInv s) (hc : s.seated c = false)
    (hsofa : s'.onSofa = s.onSofa.push c) (hseated : s'.seated = Function.update s.seated c true)
    (hbaking : s'.baking = s.baking)
    (hle : s'.standing.head ≤ s'.standing.tail) (hnd : s'.standing.contents.Nodup)
    (hstanding : ∀ d ∈ s'.standing.contents, d ∈ s.standing.contents ∧ d ≠ c)
    (hpc : ∀ d, d ≠ c → s'.customer d = s.customer d ∨ d ∉ s.standing.contents ∧
      (s'.customer d).early = false)
    (hearly : (s'.customer c).early = false)
    (hbakes : ∀ d, s'.out.countP (Line.isBake d) = s.out.countP (Line.isBake d)) : SofaInv s' where
  sofa_le := by
    rw [hsofa]
    have := h.sofa_le
    simp only [ArrayQueue.push]
    omega
  sofa_nodup := by
    rw [hsofa, ArrayQueue.contents_push h.sofa_le]
    refine List.nodup_append.mpr ⟨h.sofa_nodup, List.nodup_singleton c, fun d hd e he => ?_⟩
    rintro rfl
    rw [List.mem_singleton.mp he, h.mem_sofa, hc] at hd
    cases hd.1
  mem_sofa d := by
    rw [hsofa, ArrayQueue.contents_push h.sofa_le, List.mem_append, h.mem_sofa, List.mem_singleton,
      hseated, hbaking]
    by_cases hd : d = c
    · subst hd
      -- whoever is just seated has had nothing baked
      simp only [Function.update_self, or_true, true_and, true_iff]
      cases hb : s.baking d with
      | false => rfl
      | true =>
        have := h.baking_seated d hb
        rw [hc] at this
        cases this
    · rw [Function.update_of_ne hd]
      simp [hd]
  standing_le := hle
  standing_nodup := hnd
  standing_mem d hd := by
    obtain ⟨hd, hne⟩ := hstanding d hd
    obtain ⟨hst, hse⟩ := h.standing_mem d hd
    rw [hseated, Function.update_of_ne hne]
    rcases hpc d hne with heq | ⟨hn, -⟩
    · exact ⟨heq.trans hst, hse⟩
    · exact absurd hd hn
  early d hd := by
    by_cases hdc : d = c
    · subst hdc
      rw [hearly] at hd
      cases hd
    · rw [hseated, Function.update_of_ne hdc]
      rcases hpc d hdc with heq | ⟨-, hn⟩
      · exact h.early d (heq ▸ hd)
      · rw [hd] at hn
        cases hn
  baking_seated d hd := by
    rw [hseated]
    rw [hbaking] at hd
    by_cases hdc : d = c
    · subst hdc
      exact Function.update_self ..
    · rw [Function.update_of_ne hdc]
      exact h.baking_seated d hd
  bakes d := by rw [hbakes, hbaking]; exact h.bakes d

/-- A step that does not move customers. -/
theorem SofaInv.stay (h : SofaInv s) (hs : SameSofa s s') (hpc : s'.customer = s.customer) :
    SofaInv s' :=
  h.of_same hs fun d => Or.inl (congrFun hpc d)

/-- A step that moves the customer `c` alone. -/
theorem SofaInv.move (h : SofaInv s) {pc : CustomerPc} (hs : SameSofa s s')
    (hcust : s'.customer = Function.update s.customer c pc)
    (hpc : pc.early = true ∧ (s.customer c).early = true ∨
      pc.early = false ∧ (s.customer c ≠ .standing ∨ s.seated c = true)) : SofaInv s' := by
  apply h.of_same hs
  intro d
  rw [hcust]
  by_cases hd : d = c
  · subst hd
    rw [Function.update_self]
    exact Or.inr hpc
  · rw [Function.update_of_ne hd]
    exact Or.inl rfl

theorem countP_concat (p : Line → Bool) (l : List Line) (x : Line) :
    (l ++ [x]).countP p = l.countP p + if p x then 1 else 0 := by
  rw [List.countP_append, List.countP_singleton]

theorem SameSofa.refl (s : State) : SameSofa s s := ⟨rfl, rfl, rfl, rfl, fun _ => rfl⟩

/-- A line that is not about baking. -/
theorem SameSofa.print {l : Line} (hl : ∀ c, l.isBake c = false) (s : State) :
    SameSofa s (s.print l) := by
  refine ⟨rfl, rfl, rfl, rfl, fun c => ?_⟩
  rw [State.print, countP_concat, hl c]
  rfl

theorem SofaInv.trySit (h : SofaInv s) (hpc : (s.customer c).early = true) :
    SofaInv (Bakery.trySit s c) := by
  have hc := h.early c hpc
  have hnot : c ∉ s.standing.contents := fun hmem => by
    rw [(h.standing_mem c hmem).1] at hpc
    cases hpc
  unfold Bakery.trySit
  split
  · refine h.seat hc rfl rfl rfl h.standing_le h.standing_nodup (fun d hd => ⟨hd, ?_⟩)
      (fun d hd => ?_) ?_ fun d => ?_
    · rintro rfl
      exact hnot hd
    · exact Or.inl (Function.update_of_ne hd ..)
    · simp [sitDown, State.setCustomer, State.waitWhile, CustomerPc.early]
    · simp only [sitDown, State.print, State.setCustomer, State.waitWhile, countP_concat]
      rfl
  · -- the customer joins the standing queue
    have hcont := ArrayQueue.contents_push h.standing_le c
    refine ⟨h.sofa_le, h.sofa_nodup, h.mem_sofa, ?_, ?_, fun d hd => ?_, fun d hd => ?_,
      h.baking_seated, h.bakes⟩
    · have := h.standing_le
      simp only [State.setCustomer, State.waitWhile, ArrayQueue.push]
      omega
    · simp only [State.setCustomer, State.waitWhile, hcont]
      refine List.nodup_append.mpr ⟨h.standing_nodup, List.nodup_singleton c, fun d hd e he => ?_⟩
      rintro rfl
      rw [List.mem_singleton.mp he] at hd
      exact hnot hd
    · simp only [State.setCustomer, State.waitWhile, hcont] at hd ⊢
      rcases List.mem_append.mp hd with hd | hd
      · have hne : d ≠ c := fun heq => hnot (heq ▸ hd)
        rw [Function.update_of_ne hne]
        exact h.standing_mem d hd
      · rw [List.mem_singleton.mp hd, Function.update_self]
        exact ⟨rfl, hc⟩
    · simp only [State.setCustomer, State.waitWhile] at hd ⊢
      by_cases hdc : d = c
      · subst hdc
        exact hc
      · rw [Function.update_of_ne hdc] at hd
        exact h.early d hd

/-- The seat of a customer that leaves goes to the first standing customer. -/
theorem SofaInv.seatNext (h : SofaInv s) : SofaInv (Bakery.seatNext s) := by
  unfold Bakery.seatNext
  split
  · next hlt =>
    have hcont := ArrayQueue.contents_pop hlt
    have hnd := h.standing_nodup
    rw [hcont, List.nodup_cons] at hnd
    obtain ⟨hst, hse⟩ := h.standing_mem _ (ArrayQueue.front_mem hlt)
    refine h.seat hse rfl rfl rfl hlt hnd.2 (fun d hd => ⟨?_, ?_⟩) (fun d _ => Or.inl rfl)
      ?_ fun d => rfl
    · rw [hcont]
      exact List.mem_cons_of_mem _ hd
    · rintro rfl
      exact hnd.1 hd
    · show (s.customer s.standing.front).early = false
      rw [hst]
      rfl
  · exact h

theorem seatNext_customer (s : State) : (Bakery.seatNext s).customer = s.customer := by
  unfold Bakery.seatNext
  split <;> rfl

theorem endIfLast_same (n : Nat) (s : State) :
    SameSofa s (endIfLast n s) ∧ (endIfLast n s).customer = s.customer := by
  unfold endIfLast
  split
  · exact ⟨⟨rfl, rfl, rfl, rfl, fun _ => rfl⟩, rfl⟩
  · exact ⟨SameSofa.refl s, rfl⟩

theorem SofaInv.leave (h : SofaInv s) (hpc : s.customer c = .waitingDone) (n : Nat) :
    SofaInv (Bakery.leave n s c) := by
  have h₁ : SofaInv (goOut s c) :=
    h.stay ⟨rfl, rfl, rfl, rfl, (SameSofa.print (fun _ => rfl) s).bakes⟩ rfl
  obtain ⟨hsame, hcust⟩ := endIfLast_same n (Bakery.seatNext (goOut s c))
  have h₂ : SofaInv (endIfLast n (Bakery.seatNext (goOut s c))) := h₁.seatNext.stay hsame hcust
  have hpc₂ : (endIfLast n (Bakery.seatNext (goOut s c))).customer c = .waitingDone := by
    rw [hcust, seatNext_customer]
    exact hpc
  exact h₂.move ⟨rfl, rfl, rfl, rfl, fun _ => rfl⟩ rfl
    (Or.inr ⟨rfl, Or.inl (by rw [hpc₂]; rintro ⟨⟩)⟩)

/-- **The ways a customer's step can go**, out of `n` customers. -/
inductive CustomerMove (n c : Nat) (s : State) : State → Prop
  | idle {waits : Thread → Option Cond} : CustomerMove n c s { s with waits := waits }
  | enter (arriving : s.customer c = .arriving) : CustomerMove n c s (enter s c)
  | trySit {enterDone : Int32} (entering : s.customer c = .entering enterDone) :
      CustomerMove n c s (trySit s c)
  | sitDown (standing : s.customer c = .standing) (seated : s.seated c = true) :
      CustomerMove n c s (sitDown s c)
  | request {sitDone : Int32} (sitting : s.customer c = .sitting sitDone) :
      CustomerMove n c s (request s c)
  | pay (waiting : s.customer c = .waitingCake) (ready : s.readyToPay c = true) :
      CustomerMove n c s (pay s c)
  | leave (waiting : s.customer c = .waitingDone) (done : s.done c = true) :
      CustomerMove n c s (leave n s c)

theorem customerStep_cases (hstep : customerStep input c s = some s') :
    CustomerMove input.length c s s' := by
  unfold customerStep at hstep
  cases hci : input[c]? with
  | none => rw [hci] at hstep; cases hstep
  | some ci =>
    rw [hci] at hstep
    dsimp only at hstep
    cases hpc : s.customer c with
    | returned => rw [hpc] at hstep; cases hstep
    | arriving | entering enterDone | standing | sitting sitDone | waitingCake | waitingDone =>
      rw [hpc] at hstep
      dsimp only at hstep
      split at hstep
      · cases hstep
        exact .idle
      · next hcond =>
        cases hstep
        first
        | exact .enter hpc
        | exact .trySit hpc
        | exact .sitDown hpc (by simpa using hcond)
        | exact .request hpc
        | exact .pay hpc (by simpa using hcond)
        | exact .leave hpc (by simpa using hcond)

/-- **A step of a customer** keeps the invariant of the sofa. -/
theorem SofaInv.customerStep (h : SofaInv s) {n : Nat} (hm : CustomerMove n c s s') :
    SofaInv s' := by
  have hprint : ∀ {l : Line}, (∀ c, l.isBake c = false) → ∀ d,
      (s.out ++ [l]).countP (Line.isBake d) = s.out.countP (Line.isBake d) := fun hl =>
    (SameSofa.print hl s).bakes
  cases hm with
  | idle => exact h.stay ⟨rfl, rfl, rfl, rfl, fun _ => rfl⟩ rfl
  | enter arriving =>
    unfold Bakery.enter
    split
    · exact h.move ⟨rfl, rfl, rfl, rfl, fun _ => rfl⟩ rfl
        (Or.inr ⟨rfl, Or.inl (by rw [arriving]; rintro ⟨⟩)⟩)
    · exact h.move ⟨rfl, rfl, rfl, rfl, hprint fun _ => rfl⟩ rfl
        (Or.inl ⟨rfl, by rw [arriving]; rfl⟩)
  | trySit entering => exact h.trySit (by rw [entering]; rfl)
  | sitDown standing seated =>
    exact h.move ⟨rfl, rfl, rfl, rfl, hprint fun _ => rfl⟩ rfl (Or.inr ⟨rfl, Or.inr seated⟩)
  | request sitting =>
    exact h.move ⟨rfl, rfl, rfl, rfl, hprint fun _ => rfl⟩ rfl
      (Or.inr ⟨rfl, Or.inl (by rw [sitting]; rintro ⟨⟩)⟩)
  | pay waiting ready =>
    exact h.move ⟨rfl, rfl, rfl, rfl, hprint fun _ => rfl⟩ rfl
      (Or.inr ⟨rfl, Or.inl (by rw [waiting]; rintro ⟨⟩)⟩)
  | leave waiting done => exact h.leave waiting n

/-! ## The counters of the chefs -/

/-- The chef is inside one of the two timed waits. -/
def ChefPc.busy : ChefPc → Bool
  | .accepting .. | .baking .. => true
  | _ => false

/-- The chef is inside a bake. -/
def ChefPc.bakes : ChefPc → Bool
  | .baking .. => true
  | _ => false

/-- **The invariant of the chefs**: `chefs_idle` counts the chefs outside the timed waits,
`ovens_used` those inside a bake. -/
structure ChefInv (s : State) : Prop where
  idle : s.chefsIdle = ∑ j, if (s.chef j).busy then 0 else 1
  ovens : s.ovensUsed = ∑ j, if (s.chef j).bakes then 1 else 0

/-- The sum over the chefs when one of them moves. -/
theorem sum_update (chef : Fin maxChefs → ChefPc) (j : Fin maxChefs) (pc : ChefPc)
    (f : ChefPc → Int) :
    ∑ i, f (Function.update chef j pc i) = (∑ i, f (chef i)) - f (chef j) + f pc := by
  rw [← Finset.add_sum_erase _ (fun i => f (Function.update chef j pc i)) (Finset.mem_univ j),
    ← Finset.add_sum_erase _ (fun i => f (chef i)) (Finset.mem_univ j), Function.update_self]
  have hrest : ∑ i ∈ Finset.univ.erase j, f (Function.update chef j pc i) =
      ∑ i ∈ Finset.univ.erase j, f (chef i) := by
    apply Finset.sum_congr rfl
    intro i hi
    rw [Function.update_of_ne (Finset.ne_of_mem_erase hi)]
  rw [hrest]
  omega

/-- The chef `j` moves, and the counters with it. -/
theorem ChefInv.move (h : ChefInv s) {pc : ChefPc} (hchef : s'.chef = Function.update s.chef j pc)
    (hidle : s'.chefsIdle = s.chefsIdle - (if (s.chef j).busy then 0 else 1) + if pc.busy then 0
      else 1)
    (hovens : s'.ovensUsed = s.ovensUsed - (if (s.chef j).bakes then 1 else 0) + if pc.bakes then 1
      else 0) :
    ChefInv s' where
  idle := by
    rw [hchef, hidle, h.idle]
    exact (sum_update s.chef j pc fun pc => if pc.busy then 0 else 1).symm
  ovens := by
    rw [hchef, hovens, h.ovens]
    exact (sum_update s.chef j pc fun pc => if pc.bakes then 1 else 0).symm

/-- **A chef outside the timed waits** is idle, and leaves an oven free. -/
theorem ChefInv.free (h : ChefInv s) (hj : (s.chef j).busy = false) :
    0 < s.chefsIdle ∧ s.ovensUsed < (maxOvens : Int) := by
  have hone : 1 ≤ ∑ i, (if (s.chef i).busy then (0 : Int) else 1) := by
    calc (1 : Int) = if (s.chef j).busy then 0 else 1 := by rw [hj]; rfl
      _ ≤ _ := Finset.single_le_sum (f := fun i => if (s.chef i).busy then (0 : Int) else 1)
        (fun i _ => by split <;> decide) (Finset.mem_univ j)
  have hfour : (∑ i, if (s.chef i).busy then (0 : Int) else 1) +
      ∑ i, (if (s.chef i).bakes then (1 : Int) else 0) ≤ (maxChefs : Int) := by
    rw [← Finset.sum_add_distrib]
    calc (∑ i, ((if (s.chef i).busy then (0 : Int) else 1) + if (s.chef i).bakes then 1 else 0))
        ≤ ∑ _i : Fin maxChefs, (1 : Int) := by
          apply Finset.sum_le_sum
          intro i _
          cases s.chef i <;> simp [ChefPc.busy, ChefPc.bakes]
      _ = maxChefs := by simp
  have hi := h.idle
  have ho := h.ovens
  simp only [maxChefs, maxOvens] at *
  constructor <;> omega

/-! ## Steps of the chefs -/

/-- **The ways a chef's step can go**, from an invariant state: it changes nothing but its own
control point or what it waits for, or it starts or ends one of the two timed waits. -/
inductive ChefMove (j : Fin maxChefs) (s : State) : State → Prop
  | idle {waits : Thread → Option Cond} {pc : ChefPc} (before : (s.chef j).busy = pc.busy)
      (bakes : (s.chef j).bakes = pc.bakes) :
      ChefMove j s { s with waits := waits, chef := Function.update s.chef j pc }
  | startAccept {last : Int32} (looking : s.chef j = .looking last) (can : s.canAccept = true) :
      ChefMove j s (startAccept s j last)
  | endAccept {idx : Nat} {doneTime last : Int32}
      (accepting : s.chef j = .accepting idx doneTime last) : ChefMove j s (endAccept s j idx last)
  | startBake {i : Nat} {last : Int32} (looking : s.chef j = .looking last)
      (found : s.onSofa.findIdx s.wants = some i) :
      ChefMove j s (startBake { s with onSofa := s.onSofa.removeAt i } j (s.onSofa.data i) last)
  | endBake {idx : Nat} {bakeDone last : Int32} (baking : s.chef j = .baking idx bakeDone last) :
      ChefMove j s (endBake s j idx last)

theorem ChefInv.chefMove (h : ChefInv s) {n : Nat} (hstep : chefStep n j s = some s') :
    ChefMove j s s' := by
  unfold chefStep at hstep
  -- a chef that waits again stays where it is
  have hwait : s.waitWhile (.chef j) .timeTick true = s' → ChefMove j s s' := by
    rintro rfl
    have hm : ChefMove j s { s with
        waits := Function.update s.waits (.chef j) (some .timeTick)
        chef := Function.update s.chef j (s.chef j) } := .idle rfl rfl
    rwa [Function.update_eq_self] at hm
  cases hpc : s.chef j with
  | start =>
    rw [hpc] at hstep
    cases hstep
    exact .idle (by rw [hpc]; rfl) (by rw [hpc]; rfl)
  | looking last =>
    rw [hpc] at hstep
    dsimp only at hstep
    split at hstep
    · exact hwait (Option.some.inj hstep)
    split at hstep
    · cases hstep
      exact .idle (by rw [hpc]; rfl) (by rw [hpc]; rfl)
    split at hstep
    · next hcan =>
      cases hstep
      exact .startAccept hpc hcan
    · cases hstep
      unfold lookForRequest
      cases hfind : s.onSofa.findIdx s.wants with
      | none => exact .idle (by rw [hpc]; rfl) (by rw [hpc]; rfl)
      | some i =>
        -- the test after the removal succeeds: this chef is idle
        obtain ⟨hidle, hoven⟩ := h.free (j := j) (by rw [hpc]; rfl)
        dsimp only
        rw [if_pos ⟨hoven, hidle⟩]
        exact .startBake hpc hfind
  | accepting idx doneTime last =>
    rw [hpc] at hstep
    dsimp only at hstep
    split at hstep
    · exact hwait (Option.some.inj hstep)
    · cases hstep
      exact .endAccept hpc
  | baking idx bakeDone last =>
    rw [hpc] at hstep
    dsimp only at hstep
    split at hstep
    · exact hwait (Option.some.inj hstep)
    · cases hstep
      exact .endBake hpc
  | returned =>
    rw [hpc] at hstep
    cases hstep

/-- A step of a chef keeps the counters. -/
theorem ChefInv.chefStep (h : ChefInv s) (hm : ChefMove j s s') : ChefInv s' := by
  cases hm with
  | idle before bakes => exact h.move rfl (by rw [before]; simp) (by rw [bakes]; simp)
  | startAccept looking can =>
    refine h.move rfl ?_ ?_ <;> simp [looking, ChefPc.busy, ChefPc.bakes, Bakery.startAccept,
      State.waitWhile, State.setChef, State.print]
  | endAccept accepting =>
    refine h.move rfl ?_ ?_ <;> simp [accepting, ChefPc.busy, ChefPc.bakes, Bakery.endAccept,
      State.setChef, State.broadcast]
  | startBake looking found =>
    refine h.move rfl ?_ ?_ <;> simp [looking, ChefPc.busy, ChefPc.bakes, Bakery.startBake,
      State.waitWhile, State.setChef, State.print]
  | endBake baking =>
    refine h.move rfl ?_ ?_ <;> simp [baking, ChefPc.busy, ChefPc.bakes, Bakery.endBake,
      State.setChef, State.broadcast]

/-- A step of a chef keeps the invariant of the sofa. -/
theorem SofaInv.chefStep (h : SofaInv s) (hm : ChefMove j s s') : SofaInv s' := by
  cases hm with
  | idle => exact h.stay ⟨rfl, rfl, rfl, rfl, fun _ => rfl⟩ rfl
  | startAccept =>
    exact h.stay ⟨rfl, rfl, rfl, rfl, (SameSofa.print (fun _ => rfl) s).bakes⟩ rfl
  | endAccept => exact h.stay ⟨rfl, rfl, rfl, rfl, fun _ => rfl⟩ rfl
  | endBake => exact h.stay ⟨rfl, rfl, rfl, rfl, fun _ => rfl⟩ rfl
  | startBake looking found =>
    rename_i i last
    -- the customer that leaves the queue is the one that is baked for from now on
    obtain ⟨hlo, hhi, hwants⟩ := ArrayQueue.findIdx_eq_some found
    obtain ⟨hse, hba⟩ := (h.mem_sofa _).mp (ArrayQueue.mem_contents_of_place hlo hhi)
    refine ⟨?_, ArrayQueue.nodup_removeAt hlo hhi h.sofa_nodup, fun d => ?_, h.standing_le,
      h.standing_nodup, h.standing_mem, h.early, fun d hd => ?_, fun d => ?_⟩
    · show s.onSofa.head ≤ s.onSofa.tail - 1
      omega
    · show d ∈ (s.onSofa.removeAt i).contents ↔ s.seated d = true ∧
        Function.update s.baking (s.onSofa.data i) true d = false
      rw [ArrayQueue.mem_removeAt hlo hhi h.sofa_nodup, h.mem_sofa]
      by_cases hd : d = s.onSofa.data i
      · subst hd
        simp
      · rw [Function.update_of_ne hd]
        simp [hd]
    · show s.seated d = true
      by_cases hdi : d = s.onSofa.data i
      · rw [hdi]
        exact hse
      · exact h.baking_seated d ((Function.update_of_ne hdi ..).symm.trans hd)
    · show (s.out ++ [Line.bakes s.currentTime j (s.onSofa.data i)]).countP (Line.isBake d) =
        if Function.update s.baking (s.onSofa.data i) true d then 1 else 0
      rw [countP_concat, h.bakes]
      by_cases hd : d = s.onSofa.data i
      · subst hd
        simp [hba, Line.isBake]
      · rw [Function.update_of_ne hd]
        simp [Line.isBake, Ne.symm hd]

/-! ## Payments -/

/-- The customer has paid or returned. -/
def CustomerPc.late : CustomerPc → Bool
  | .waitingDone | .returned => true
  | _ => false

/-- **The invariant of the payments**: the queue holds customers that have paid and whose payment
was not accepted, each once; a customer pays once, and its payment is accepted once. -/
structure PayInv (s : State) : Prop where
  le : s.waitingPayment.head ≤ s.waitingPayment.tail
  nodup : s.waitingPayment.contents.Nodup
  mem : ∀ c ∈ s.waitingPayment.contents, s.paid c = true ∧ s.out.countP (Line.isAccept c) = 0
  late : ∀ c, s.paid c = true → (s.customer c).late = true
  pays : ∀ c, s.out.countP (Line.isPay c) = if s.paid c then 1 else 0
  accepts : ∀ c, s.out.countP (Line.isAccept c) ≤ 1
  accepts_paid : ∀ c, 0 < s.out.countP (Line.isAccept c) → s.paid c = true

/-- What the invariant of the payments reads. -/
structure SamePay (s s' : State) : Prop where
  waitingPayment : s'.waitingPayment = s.waitingPayment
  paid : s'.paid = s.paid
  pays : ∀ c, s'.out.countP (Line.isPay c) = s.out.countP (Line.isPay c)
  accepts : ∀ c, s'.out.countP (Line.isAccept c) = s.out.countP (Line.isAccept c)

/-- A line that is not about a payment. -/
theorem SamePay.print {l : Line} (hp : ∀ c, l.isPay c = false) (ha : ∀ c, l.isAccept c = false)
    (s : State) : SamePay s (s.print l) := by
  refine ⟨rfl, rfl, fun c => ?_, fun c => ?_⟩
  · rw [State.print, countP_concat, hp c]
    rfl
  · rw [State.print, countP_concat, ha c]
    rfl

/-- A step without a payment that moves no customer back from its payment. -/
theorem PayInv.of_same (h : PayInv s) (hs : SamePay s s')
    (hpc : ∀ c, (s.customer c).late = true → (s'.customer c).late = true) : PayInv s' where
  le := by rw [hs.waitingPayment]; exact h.le
  nodup := by rw [hs.waitingPayment]; exact h.nodup
  mem c hc := by
    rw [hs.waitingPayment] at hc
    rw [hs.paid, hs.accepts]
    exact h.mem c hc
  late c hc := by
    rw [hs.paid] at hc
    exact hpc c (h.late c hc)
  pays c := by rw [hs.pays, hs.paid]; exact h.pays c
  accepts c := by rw [hs.accepts]; exact h.accepts c
  accepts_paid c := by rw [hs.accepts, hs.paid]; exact h.accepts_paid c

theorem PayInv.stay (h : PayInv s) (hs : SamePay s s') (hpc : s'.customer = s.customer) :
    PayInv s' :=
  h.of_same hs fun c hc => by rw [hpc]; exact hc

theorem PayInv.move (h : PayInv s) {pc : CustomerPc} (hs : SamePay s s')
    (hcust : s'.customer = Function.update s.customer c pc)
    (hpc : (s.customer c).late = true → pc.late = true) : PayInv s' := by
  apply h.of_same hs
  intro d hd
  rw [hcust]
  by_cases hdc : d = c
  · subst hdc
    rw [Function.update_self]
    exact hpc hd
  · rw [Function.update_of_ne hdc]
    exact hd

theorem seatNext_samePay (s : State) : SamePay s (Bakery.seatNext s) := by
  unfold Bakery.seatNext
  split <;> exact ⟨rfl, rfl, fun _ => rfl, fun _ => rfl⟩

theorem endIfLast_samePay (n : Nat) (s : State) : SamePay s (endIfLast n s) := by
  unfold endIfLast
  split <;> exact ⟨rfl, rfl, fun _ => rfl, fun _ => rfl⟩

theorem SamePay.trans {s'' : State} (h : SamePay s s') (h' : SamePay s' s'') : SamePay s s'' where
  waitingPayment := h'.waitingPayment.trans h.waitingPayment
  paid := h'.paid.trans h.paid
  pays c := (h'.pays c).trans (h.pays c)
  accepts c := (h'.accepts c).trans (h.accepts c)

/-- **A payment**: the customer joins the queue of payments. -/
theorem PayInv.pay (h : PayInv s) (hpc : s.customer c = .waitingCake) :
    PayInv (Bakery.pay s c) := by
  -- A customer who waits for the cake has not paid, so it stands in no queue and nothing of it has
  -- been accepted.
  have hpaid : s.paid c = false := by
    cases hp : s.paid c with
    | false => rfl
    | true =>
      have := h.late c hp
      rw [hpc] at this
      cases this
  have hacc : s.out.countP (Line.isAccept c) = 0 := by
    by_contra hne
    have := h.accepts_paid c (Nat.pos_of_ne_zero hne)
    rw [hpaid] at this
    cases this
  have hnot : c ∉ s.waitingPayment.contents := fun hmem => by
    rw [(h.mem c hmem).1] at hpaid
    cases hpaid
  have hcont := ArrayQueue.contents_push h.le c
  have hsame : ∀ d, (s.out ++ [Line.pays s.currentTime c]).countP (Line.isAccept d) =
      s.out.countP (Line.isAccept d) := fun d => by
    rw [countP_concat]
    rfl
  refine ⟨?_, ?_, fun d hd => ?_, fun d hd => ?_, fun d => ?_, fun d => ?_, fun d hd => ?_⟩
  · show s.waitingPayment.head ≤ s.waitingPayment.tail + 1
    have := h.le
    omega
  · show (s.waitingPayment.push c).contents.Nodup
    rw [hcont]
    refine List.nodup_append.mpr ⟨h.nodup, List.nodup_singleton c, fun d hd e he => ?_⟩
    rintro rfl
    rw [List.mem_singleton.mp he] at hd
    exact hnot hd
  -- Those in the queue have paid and wait for the acceptance; the new one has just paid.
  · change d ∈ (s.waitingPayment.push c).contents at hd
    show Function.update s.paid c true d = true ∧
      (s.out ++ [Line.pays s.currentTime c]).countP (Line.isAccept d) = 0
    rw [hsame]
    rw [hcont] at hd
    rcases List.mem_append.mp hd with hd | hd
    · have hne : d ≠ c := fun heq => hnot (heq ▸ hd)
      rw [Function.update_of_ne hne]
      exact h.mem d hd
    · rw [List.mem_singleton.mp hd, Function.update_self]
      exact ⟨rfl, hacc⟩
  · change Function.update s.paid c true d = true at hd
    show (Function.update s.customer c .waitingDone d).late = true
    by_cases hdc : d = c
    · rw [hdc, Function.update_self]
      rfl
    · rw [Function.update_of_ne hdc] at hd ⊢
      exact h.late d hd
  · show (s.out ++ [Line.pays s.currentTime c]).countP (Line.isPay d) =
      if Function.update s.paid c true d then 1 else 0
    rw [countP_concat, h.pays]
    by_cases hdc : d = c
    · subst hdc
      simp [hpaid, Line.isPay]
    · rw [Function.update_of_ne hdc]
      simp [Line.isPay, Ne.symm hdc]
  · show (s.out ++ [Line.pays s.currentTime c]).countP (Line.isAccept d) ≤ 1
    rw [hsame]
    exact h.accepts d
  · change 0 < (s.out ++ [Line.pays s.currentTime c]).countP (Line.isAccept d) at hd
    show Function.update s.paid c true d = true
    rw [hsame] at hd
    by_cases hdc : d = c
    · rw [hdc, Function.update_self]
    · rw [Function.update_of_ne hdc]
      exact h.accepts_paid d hd

/-- **A payment is accepted**: its customer leaves the queue of payments. -/
theorem PayInv.startAccept (h : PayInv s) {last : Int32} (hcan : s.canAccept = true) :
    PayInv (Bakery.startAccept s j last) := by
  have hlt : s.waitingPayment.head < s.waitingPayment.tail := by
    simp only [State.canAccept, Bool.and_eq_true, decide_eq_true_eq] at hcan
    exact hcan.1.1.1
  have hcont := ArrayQueue.contents_pop hlt
  have hnd := h.nodup
  rw [hcont, List.nodup_cons] at hnd
  obtain ⟨hpaid, hzero⟩ := h.mem _ (ArrayQueue.front_mem hlt)
  have hcount : ∀ d, (s.out ++ [Line.accepts s.currentTime j s.waitingPayment.front]).countP
      (Line.isAccept d) = s.out.countP (Line.isAccept d) +
        if s.waitingPayment.front = d then 1 else 0 := fun d => by
    rw [countP_concat]
    simp [Line.isAccept]
  refine ⟨hlt, hnd.2, fun d hd => ?_, h.late, fun d => ?_, fun d => ?_, fun d hd => ?_⟩
  · change d ∈ s.waitingPayment.pop.contents at hd
    show s.paid d = true ∧ (s.out ++ [Line.accepts s.currentTime j s.waitingPayment.front]).countP
      (Line.isAccept d) = 0
    rw [hcount, if_neg fun heq : s.waitingPayment.front = d => hnd.1 (heq ▸ hd)]
    exact h.mem d (hcont ▸ List.mem_cons_of_mem _ hd)
  · show (s.out ++ [Line.accepts s.currentTime j s.waitingPayment.front]).countP (Line.isPay d) = _
    rw [countP_concat]
    exact h.pays d
  · show (s.out ++ [Line.accepts s.currentTime j s.waitingPayment.front]).countP
      (Line.isAccept d) ≤ 1
    rw [hcount]
    split
    · next heq => rw [← heq, hzero]
    · exact h.accepts d
  · change 0 < (s.out ++ [Line.accepts s.currentTime j s.waitingPayment.front]).countP
      (Line.isAccept d) at hd
    show s.paid d = true
    rw [hcount] at hd
    split at hd
    · next heq => rw [← heq]; exact hpaid
    · exact h.accepts_paid d hd

/-- A step of a chef keeps the invariant of the payments. -/
theorem PayInv.chefStep (h : PayInv s) (hm : ChefMove j s s') : PayInv s' := by
  cases hm with
  | idle | endAccept | endBake => exact h.stay ⟨rfl, rfl, fun _ => rfl, fun _ => rfl⟩ rfl
  | startAccept looking can => exact h.startAccept can
  | startBake looking found =>
    rename_i i last
    have hs := SamePay.print (l := .bakes s.currentTime j (s.onSofa.data i)) (fun _ => rfl)
      (fun _ => rfl) s
    exact h.stay ⟨rfl, rfl, hs.pays, hs.accepts⟩ rfl

/-- A step of a customer keeps the invariant of the payments. -/
theorem PayInv.customerStep (h : PayInv s) {n : Nat} (hm : CustomerMove n c s s') : PayInv s' := by
  have hprint : ∀ {l : Line}, (∀ c, l.isPay c = false) → (∀ c, l.isAccept c = false) →
      SamePay s (s.print l) := fun hp ha => SamePay.print hp ha s
  cases hm with
  | idle => exact h.stay ⟨rfl, rfl, fun _ => rfl, fun _ => rfl⟩ rfl
  | enter arriving =>
    unfold Bakery.enter
    split
    · exact h.move ⟨rfl, rfl, fun _ => rfl, fun _ => rfl⟩ rfl (fun _ => rfl)
    · have hs := hprint (l := .enters s.currentTime c) (fun _ => rfl) (fun _ => rfl)
      exact h.move ⟨rfl, rfl, hs.pays, hs.accepts⟩ rfl (by rw [arriving]; rintro ⟨⟩)
  | trySit entering =>
    unfold Bakery.trySit
    split
    · have hs := hprint (l := .sits s.currentTime c) (fun _ => rfl) (fun _ => rfl)
      exact h.move ⟨rfl, rfl, hs.pays, hs.accepts⟩ rfl (by rw [entering]; rintro ⟨⟩)
    · exact h.move ⟨rfl, rfl, fun _ => rfl, fun _ => rfl⟩ rfl (by rw [entering]; rintro ⟨⟩)
  | sitDown standing seated =>
    have hs := hprint (l := .sits s.currentTime c) (fun _ => rfl) (fun _ => rfl)
    exact h.move ⟨rfl, rfl, hs.pays, hs.accepts⟩ rfl (by rw [standing]; rintro ⟨⟩)
  | request sitting =>
    have hs := hprint (l := .requests s.currentTime c) (fun _ => rfl) (fun _ => rfl)
    exact h.move ⟨rfl, rfl, hs.pays, hs.accepts⟩ rfl (by rw [sitting]; rintro ⟨⟩)
  | pay waiting ready => exact h.pay waiting
  | leave waiting done =>
    have hs := hprint (l := .leaves s.currentTime c) (fun _ => rfl) (fun _ => rfl)
    have hout : SamePay s (goOut s c) := ⟨rfl, rfl, hs.pays, hs.accepts⟩
    have hsame := (hout.trans (seatNext_samePay _)).trans (endIfLast_samePay n _)
    have hcust : (endIfLast n (seatNext (goOut s c))).customer = s.customer := by
      rw [(endIfLast_same n _).2, seatNext_customer]
      rfl
    refine PayInv.move (c := c) h ⟨hsame.waitingPayment, hsame.paid, hsame.pays, hsame.accepts⟩
      (show _ = Function.update s.customer c .returned from ?_) fun _ => rfl
    rw [Bakery.leave, State.setCustomer, hcust]

/-! ## Runs -/

/-- **The invariant** of the simulation. -/
structure Inv (s : State) : Prop where
  sofa : SofaInv s
  pay : PayInv s
  chefs : ChefInv s

theorem Inv.init (input : List CustomerInput) : Inv (init input) where
  sofa := ⟨le_rfl, List.nodup_nil, fun c => by simp [Bakery.init, ArrayQueue.contents], le_rfl,
    List.nodup_nil, fun c hc => by simp [Bakery.init, ArrayQueue.contents] at hc, fun _ _ => rfl,
    fun _ hc => (by cases hc), fun _ => rfl⟩
  pay := ⟨le_rfl, List.nodup_nil, fun c hc => by simp [Bakery.init, ArrayQueue.contents] at hc,
    fun _ hc => (by cases hc), fun _ => rfl, fun _ => Nat.zero_le _, fun _ hc => (by cases hc)⟩
  chefs := ⟨by simp [Bakery.init, ChefPc.busy], by simp [Bakery.init, ChefPc.bakes]⟩

/-- The parts of the state that the invariant reads are the same. -/
theorem Inv.same (h : Inv s) (hsofa : SameSofa s s') (hpay : SamePay s s')
    (hcust : s'.customer = s.customer) (hchef : s'.chef = s.chef)
    (hidle : s'.chefsIdle = s.chefsIdle) (hovens : s'.ovensUsed = s.ovensUsed) : Inv s' where
  sofa := h.sofa.stay hsofa hcust
  pay := h.pay.stay hpay hcust
  chefs := ⟨by rw [hidle, hchef]; exact h.chefs.idle, by rw [hovens, hchef]; exact h.chefs.ovens⟩

theorem enter_chef (s : State) (c : Nat) : (enter s c).chef = s.chef ∧
    (enter s c).chefsIdle = s.chefsIdle ∧ (enter s c).ovensUsed = s.ovensUsed := by
  unfold enter
  split <;> exact ⟨rfl, rfl, rfl⟩

theorem leave_chef (n : Nat) (s : State) (c : Nat) : (leave n s c).chef = s.chef ∧
    (leave n s c).chefsIdle = s.chefsIdle ∧ (leave n s c).ovensUsed = s.ovensUsed := by
  have hseat : ∀ s : State, (seatNext s).chef = s.chef ∧ (seatNext s).chefsIdle = s.chefsIdle ∧
      (seatNext s).ovensUsed = s.ovensUsed := fun s => by
    unfold seatNext
    split <;> exact ⟨rfl, rfl, rfl⟩
  have hlast : ∀ s : State, (endIfLast n s).chef = s.chef ∧
    (endIfLast n s).chefsIdle = s.chefsIdle ∧
      (endIfLast n s).ovensUsed = s.ovensUsed := fun s => by
    unfold endIfLast
    split <;> exact ⟨rfl, rfl, rfl⟩
  obtain ⟨h1, h2, h3⟩ := hlast (seatNext (goOut s c))
  obtain ⟨g1, g2, g3⟩ := hseat (goOut s c)
  exact ⟨h1.trans g1, h2.trans g2, h3.trans g3⟩

/-- A customer leaves the chefs alone. -/
theorem CustomerMove.chefs {n : Nat} (hm : CustomerMove n c s s') : s'.chef = s.chef ∧
    s'.chefsIdle = s.chefsIdle ∧ s'.ovensUsed = s.ovensUsed := by
  cases hm with
  | idle | sitDown | request | pay => exact ⟨rfl, rfl, rfl⟩
  | enter => exact enter_chef s c
  | trySit =>
    unfold Bakery.trySit
    split <;> exact ⟨rfl, rfl, rfl⟩
  | leave => exact leave_chef n s c

/-- **Every step keeps the invariant.** -/
theorem Inv.step {e : Event} (h : Inv s) (hstep : Step input s e s') : Inv s' := by
  cases hstep with
  | wake blocked =>
    exact h.same ⟨rfl, rfl, rfl, rfl, fun _ => rfl⟩ ⟨rfl, rfl, fun _ => rfl, fun _ => rfl⟩
      rfl rfl rfl rfl
  | run ready step =>
    rename_i t
    cases t with
    | customer c =>
      have hm := customerStep_cases step
      obtain ⟨hchef, hidle, hovens⟩ := hm.chefs
      exact ⟨h.sofa.customerStep hm, h.pay.customerStep hm,
        ⟨by rw [hidle, hchef]; exact h.chefs.idle, by rw [hovens, hchef]; exact h.chefs.ovens⟩⟩
    | chef j =>
      have hm := h.chefs.chefMove step
      exact ⟨h.sofa.chefStep hm, h.pay.chefStep hm, h.chefs.chefStep hm⟩
    | timer =>
      change timerStep input.length s = some s' at step
      unfold timerStep at step
      split at step
      · cases step
        exact h.same ⟨rfl, rfl, rfl, rfl, fun _ => rfl⟩ ⟨rfl, rfl, fun _ => rfl,
          fun _ => rfl⟩ rfl rfl rfl rfl
      · cases step
        exact h.same ⟨rfl, rfl, rfl, rfl, fun _ => rfl⟩ ⟨rfl, rfl, fun _ => rfl,
          fun _ => rfl⟩ rfl rfl rfl rfl
      · cases step
    | main =>
      change mainStep input.length s = some s' at step
      unfold mainStep at step
      split at step
      · split at step
        · cases step
          exact h.same ⟨rfl, rfl, rfl, rfl, fun _ => rfl⟩ ⟨rfl, rfl, fun _ => rfl,
            fun _ => rfl⟩ rfl rfl rfl rfl
        · cases step
      · split at step
        · cases step
          exact h.same ⟨rfl, rfl, rfl, rfl, fun _ => rfl⟩ ⟨rfl, rfl, fun _ => rfl,
            fun _ => rfl⟩ rfl rfl rfl rfl
        · cases step
      · cases step

theorem Reachable.inv (h : Reachable input s) : Inv s := by
  obtain ⟨-, es, hrun⟩ := h
  exact hrun.invariant (I := Inv) (fun _ _ _ hi hs => hi.step hs) (Inv.init input)

/-- A customer leaves the sofa queue only when a chef starts to bake for it. -/
theorem Inv.taken {e : Event} (h : Inv s) (hstep : Step input s e s') (hc : c ∈ s.onSofa.contents)
    (hgone : c ∉ s'.onSofa.contents) :
    ∃ j bakeDone last, e = .run (.chef j) ∧ s'.chef j = .baking c bakeDone last ∧
      s'.out = s.out ++ [.bakes s.currentTime j c] := by
  have h' := h.step hstep
  -- the customer is still seated and not baked for, unless it is this step that bakes for it
  have hkeep : (s'.seated c = s.seated c ∨ s'.seated c = true) → s'.baking = s.baking → False := by
    intro hseated hbaking
    obtain ⟨hse, hba⟩ := (h.sofa.mem_sofa c).mp hc
    apply hgone
    rw [h'.sofa.mem_sofa, hbaking]
    rcases hseated with heq | htrue
    · exact ⟨heq.trans hse, hba⟩
    · exact ⟨htrue, hba⟩
  have hupdate : ∀ d, Function.update s.seated d true c = s.seated c ∨
      Function.update s.seated d true c = true := fun d => by
    by_cases hd : c = d
    · exact Or.inr (by rw [hd, Function.update_self])
    · exact Or.inl (Function.update_of_ne hd ..)
  cases hstep with
  | wake blocked => exact (hkeep (Or.inl rfl) rfl).elim
  | run ready step =>
    rename_i t
    cases t with
    | customer d =>
      exfalso
      cases customerStep_cases step with
      | idle | sitDown | request | pay => exact hkeep (Or.inl rfl) rfl
      | enter =>
        unfold enter at hkeep
        split at hkeep <;> exact hkeep (Or.inl rfl) rfl
      | trySit =>
        unfold trySit at hkeep
        split at hkeep
        · exact hkeep (hupdate d) rfl
        · exact hkeep (Or.inl rfl) rfl
      | leave =>
        unfold leave endIfLast seatNext at hkeep
        split at hkeep <;> split at hkeep <;> first
        | exact hkeep (hupdate _) rfl
        | exact hkeep (Or.inl rfl) rfl
    | chef j =>
      cases h.chefs.chefMove step with
      | idle | startAccept | endAccept | endBake => exact (hkeep (Or.inl rfl) rfl).elim
      | startBake looking found =>
        rename_i i last
        obtain ⟨hlo, hhi, -⟩ := ArrayQueue.findIdx_eq_some found
        have hci : c = s.onSofa.data i := by
          by_contra hne
          apply hgone
          exact (ArrayQueue.mem_removeAt hlo hhi h.sofa.sofa_nodup c).mpr ⟨hc, hne⟩
        refine ⟨j, s.currentTime + 2, last, rfl, ?_, ?_⟩
        · simp [startBake, State.waitWhile, State.setChef, hci]
        · simp [startBake, State.waitWhile, State.setChef, State.print, hci]
    | timer =>
      exfalso
      change timerStep input.length s = some s' at step
      unfold timerStep at step
      split at step <;> cases step <;> exact hkeep (Or.inl rfl) rfl
    | main =>
      exfalso
      change mainStep input.length s = some s' at step
      unfold mainStep at step
      split at step <;> (try split at step) <;> cases step <;> exact hkeep (Or.inl rfl) rfl

/-- **No request is lost and none is served twice.** In every reachable state the sofa queue
holds each customer that is seated and not picked exactly once, and nobody else; a customer that
a step takes off the queue is baked for in that step, since a chef that looks for work finds a
chef and an oven free; and over the whole run each customer is baked for, pays and has its
payment accepted at most once. -/
theorem requests_served (h : Reachable input s) :
    (s.onSofa.contents.Nodup ∧ ∀ c, c ∈ s.onSofa.contents ↔ s.seated c = true ∧ ¬ Picked s c) ∧
    (∀ e s' c, Step input s e s' → c ∈ s.onSofa.contents → c ∉ s'.onSofa.contents →
      ∃ j bakeDone last, e = .run (.chef j) ∧ s'.chef j = .baking c bakeDone last ∧
        s'.out = s.out ++ [.bakes s.currentTime j c]) ∧
    (∀ j last, s.chef j = .looking last → s.ovensUsed < (maxOvens : Int) ∧ 0 < s.chefsIdle) ∧
    ∀ c, s.out.countP (Line.isBake c) ≤ 1 ∧ s.out.countP (Line.isPay c) ≤ 1 ∧
      s.out.countP (Line.isAccept c) ≤ 1 := by
  have hinv := h.inv
  refine ⟨⟨hinv.sofa.sofa_nodup, fun c => ?_⟩, fun e s' c hstep => hinv.taken hstep,
    fun j last hj => ?_, fun c => ⟨?_, ?_, hinv.pay.accepts c⟩⟩
  · rw [hinv.sofa.mem_sofa, picked_iff, hinv.sofa.bakes]
    cases s.baking c <;> simp
  · obtain ⟨hidle, hoven⟩ := hinv.chefs.free (j := j) (by rw [hj]; rfl)
    exact ⟨hoven, hidle⟩
  · rw [hinv.sofa.bakes]
    split <;> decide
  · rw [hinv.pay.pays]
    split <;> decide

/-- The state after the thread `t` has run, when it is not blocked. -/
def afterThread (input : List CustomerInput) (s : State) (t : Thread) : Option State :=
  if s.waits t = none then threadStep input s t else none

/-- What is computed thread by thread is a run, with the condition that is checked on the way. -/
theorem meets_of_afterThread {C : State → Event → Prop} {next : State → Thread → Option State}
    (hnext : ∀ s t s', next s t = some s' → C s (.run t) ∧ afterThread input s t = some s')
    {ts : List Thread} (h : Run.after next ts (init input) = some s) :
    ∃ es, Run.Meets (Step input) C (init input) es s := by
  have hstep : ∀ s t s', next s t = some s' → C s (.run t) ∧ Step input s (.run t) s' := by
    intro s t s' hs
    obtain ⟨hcond, hafter⟩ := hnext s t s' hs
    unfold afterThread at hafter
    split at hafter
    · next hready => exact ⟨hcond, .run hready hafter⟩
    · cases hafter
  have hmeets := Run.meets_of_after hstep ts (.nil (init input)) h
  rw [List.nil_append] at hmeets
  clear h
  induction hmeets with
  | nil => exact ⟨_, .nil _⟩
  | snoc _ cond last ih =>
    obtain ⟨es, hes⟩ := ih
    exact ⟨_, hes.snoc cond last⟩

theorem reachable_of_after {ts : List Thread} (hlen : input.length ≤ maxCustomers)
    (h : Run.after (afterThread input) ts (init input) = some s) : Reachable input s := by
  have htrue : ∀ s t s', afterThread input s t = some s' → True ∧ afterThread input s t = some s' :=
    fun _ _ _ hs => ⟨trivial, hs⟩
  obtain ⟨es, hmeets⟩ := meets_of_afterThread (C := fun _ _ => True) htrue h
  exact ⟨hlen, es, hmeets.run⟩

/-- Six customers that arrive at once. -/
def sixCustomers : List CustomerInput := [⟨1, 0⟩, ⟨2, 0⟩, ⟨3, 0⟩, ⟨4, 0⟩, ⟨5, 0⟩, ⟨6, 0⟩]

/-- Four customers sit and two stand; the first two have got their cakes, and the first has paid. -/
def toFirstPayment : List Thread :=
  [.timer, .customer 0, .customer 1, .customer 2, .customer 3, .customer 4, .customer 5, .timer,
    .customer 0, .customer 1, .customer 2, .customer 3, .customer 4, .customer 5, .timer,
    .customer 0, .customer 1, .customer 2, .customer 3, .timer, .chef 0, .chef 0, .chef 1, .chef 1,
    .timer, .timer, .chef 0, .chef 1, .customer 0]

/-- The rush hour: a chef is at the cash register for the first customer, while the second has paid
and waits; another chef bakes for the third, and the fourth has requested its cake. -/
def rushHour : State :=
  (Run.after (afterThread sixCustomers) (toFirstPayment ++ [.timer, .customer 1, .chef 0, .chef 1,
    .chef 2]) (init sixCustomers)).getD (init [])

theorem rushHour_reachable : Reachable sixCustomers rushHour := by
  obtain ⟨s, hs⟩ : ∃ s, Run.after (afterThread sixCustomers) (toFirstPayment ++ [.timer,
    .customer 1,
      .chef 0, .chef 1, .chef 2]) (init sixCustomers) = some s :=
    Option.isSome_iff_exists.mp (by decide +kernel)
  rw [rushHour, hs]
  exact reachable_of_after (by decide) hs

/-- In the rush hour the fourth customer alone is on the queue, and a chef that takes it off bakes
for it; the cakes of the three before it were baked once. -/
theorem requests_served_rush : rushHour.onSofa.contents = [3] ∧ ¬ Picked rushHour 3 ∧
    rushHour.out.countP (Line.isBake 2) = 1 ∧ rushHour.out.countP (Line.isPay 1) = 1 ∧
    rushHour.out.countP (Line.isAccept 0) = 1 ∧
    ∃ s', Step sixCustomers rushHour (.run (.chef 2)) s' ∧ s'.onSofa.contents = [] ∧
      s'.out = rushHour.out ++ [.bakes rushHour.currentTime 2 3] := by
  have hserved := requests_served rushHour_reachable
  have hcont : rushHour.onSofa.contents = [3] := by decide +kernel
  have hmem : 3 ∈ rushHour.onSofa.contents := by
    rw [hcont]
    exact List.mem_singleton_self 3
  have hnot : ¬ Picked rushHour 3 := ((hserved.1.2 3).mp hmem).2
  obtain ⟨s', hs'⟩ : ∃ s', threadStep sixCustomers rushHour (.chef 2) = some s' :=
    Option.isSome_iff_exists.mp (by decide +kernel)
  have hstep : Step sixCustomers rushHour (.run (.chef 2)) s' := .run (by decide +kernel) hs'
  have hempty : s'.onSofa.contents = [] := by
    have : (threadStep sixCustomers rushHour (.chef 2)).map (·.onSofa.contents) = some [] := by
      decide +kernel
    rw [hs'] at this
    exact Option.some.inj this
  obtain ⟨j, _, _, hj, -, hout⟩ := hserved.2.1 _ s' 3 hstep hmem
    (by rw [hempty]; exact List.not_mem_nil)
  obtain rfl : (2 : Fin maxChefs) = j := by
    simpa using hj
  exact ⟨hcont, hnot, by decide +kernel, by decide +kernel, by decide +kernel, s', hstep, hempty,
    hout⟩

end Bakery
