import Mathlib.Data.List.TakeWhile
import OsnMp2.Kernel.Arguments
import OsnMp2.Lib.Chunks

/-!
# The kernel's copies from and to user memory

`copyout`, `copyin` and `copyinstr` cut their range at page boundaries and are three instances of
one loop over the range: a round reaches for the page, with a page fault when it is not mapped for
the user, and then moves the bytes that lie in it. So the position of the ends in their pages, and
of a page that is refused, are dealt with once, for ranges; what is left is what one page does.

The page table may be that of the process, whose pages the fault handler loads, or one that is being
built beside it, as in `exec`: for that one a fault never helps.

## Main definitions

* `reachPage`, `putBytes`, `getBytes`, `getString`: the parts of a round
* `Mem.InPlace`, `Written`: ranges of resident pages, and what it means that exactly a range is
  written
* `Refused`: the ways in which a page is refused
* `CopyStep`: what a copy may do to the memory
* `CopiesExactly`: user copies respect exactly the requested range

## Main results

* `copyout_eq`, `copyin_eq`, `copyinstr_eq`: the code as loops over ranges
* `copyout_resident`, `copyin_resident`, `copyinstr_resident`: copies of resident pages
* `copyout_fails_iff`, `copyin_fails_iff`: when a copy fails
* `user_copies`: all of it
-/

namespace Xv6

open Halting

variable {fs : Fs} {pt root tf : Frame} {w : Bool} {a n : Nat} {t t' : Task} {m m' : Mem}
    {own : Set Frame}

/-! ## The copies as loops over a range -/

/-- The frame of the page, when the page may be written. -/
def writableFrame (pt : Frame) (a : Nat) (f : Frame) : TM (Option Frame) := do
  match ← onMem (walk pt a false) with
  | none => halt (.panic .kerneltrap)
  | some (g, i) => do
    let pte ← onMem (readPte g i)
    pure (if pte.perm.w then some f else none)

/-- Reach for the page of `a`, in order to write it or to read it. -/
def reachPage (fs : Fs) (pt : Frame) (isWrite : Bool) (a : Nat) : TM (Option Frame) :=
  if maxVa ≤ pgRoundDown a then pure none
  else do
    match ← walkaddrFault fs pt (pgRoundDown a) isWrite with
    | none => pure none
    | some f => if isWrite then writableFrame pt (pgRoundDown a) f else pure (some f)

/-- Move the next `n` bytes of the source to `a`, in the frame `f`. -/
def putBytes (f : Frame) (a n : Nat) (src : List UInt8) : TM (List UInt8 × Bool) := do
  onMem (modify fun m => m.setBytes f (a - pgRoundDown a) (src.take n))
  pure (src.drop n, false)

/-- Read `n` bytes from `a` on, in the frame `f`. -/
def getBytes (f : Frame) (a n : Nat) (dst : List UInt8) : TM (List UInt8 × Bool) := do
  let t ← get
  pure (dst ++ t.mem.bytes f (a - pgRoundDown a) n, false)

/-- Read `n` bytes from `a` on, in the frame `f`, up to the first NUL. -/
def getString (f : Frame) (a n : Nat) (dst : List UInt8) : TM (List UInt8 × Bool) := do
  let t ← get
  let bytes := t.mem.bytes f (a - pgRoundDown a) n
  pure (if 0 ∈ bytes then (dst ++ bytes.takeWhile (· ≠ 0) ++ [0], true) else (dst ++ bytes, false))

/-- What `copyout` and `copyin` return. -/
def copyResult (e : Chunks.End) : Int := if e = .through then 0 else -1

/-- What `copyinstr` returns. -/
def stringResult (e : Chunks.End) : Int := if e = .stopped then 0 else -1

theorem inPage_eq_first (a n : Nat) :
    min (pgSize - (a - pgRoundDown a)) n = Chunks.first pgSize a n := by
  unfold Chunks.first pgRoundDown
  rw [Nat.mod_def, Nat.mul_comm]

/-- The next page begins where the part of the range in this one ends. -/
theorem add_first (h : Chunks.first pgSize a n < n) :
    pgRoundDown a + pgSize = a + Chunks.first pgSize a n := by
  unfold Chunks.first pgRoundDown at *
  simp only [pgSize] at *
  omega

theorem copyoutLoop_nil (fs : Fs) (pt : Frame) (fuel dst : Nat) :
    copyoutLoop fs pt fuel dst [] = pure (0, []) := by
  cases fuel <;> rfl

theorem copyoutLoop_eq : ∀ fuel {dst : Nat} {src : List UInt8}, src.length ≤ fuel →
    copyoutLoop fs pt fuel dst src = (do
      let x ← Chunks.loop pgSize (reachPage fs pt true) putBytes dst src.length src
      pure (copyResult x.1, x.2)) := by
  intro fuel
  -- On the fuel; `congr 1` and `funext` walk through both programs call by call.
  induction fuel with
  | zero =>
    intro dst src hlen
    obtain rfl : src = [] := List.length_eq_zero_iff.mp (by omega)
    rfl
  | succ fuel ih =>
    intro dst src hlen
    rw [copyoutLoop]
    by_cases hnil : src.length = 0
    · obtain rfl := List.length_eq_zero_iff.mp hnil
      rfl
    rw [if_neg hnil, Chunks.loop_of_pos (by decide) (Nat.pos_of_ne_zero hnil)]
    rw [Chunks.round, reachPage]
    by_cases hmax : maxVa ≤ pgRoundDown dst
    · rw [if_pos hmax, if_pos hmax, pure_bind, pure_bind]
      rfl
    rw [if_neg hmax, if_neg hmax, bind_assoc, bind_assoc]
    congr 1
    funext o
    cases o with
    | none => rfl
    | some f =>
      dsimp only
      rw [if_pos rfl, writableFrame, bind_assoc]
      congr 1
      funext o
      cases o with
      | none => rfl
      | some x =>
        dsimp only
        rw [bind_assoc]
        congr 1
        funext pte
        rw [pure_bind]
        cases hw : pte.perm.w with
        | false => rfl
        | true =>
          rw [if_neg (by decide), if_pos rfl]
          dsimp only
          rw [putBytes, bind_assoc, bind_assoc, ← inPage_eq_first]
          congr 1
          funext u
          rw [pure_bind, if_neg Bool.false_ne_true]
          have hfirst := Chunks.first_pos (P := pgSize) (a := dst) (by decide)
            (Nat.pos_of_ne_zero hnil)
          rw [inPage_eq_first] at *
          rw [← List.length_drop, ← ih (by rw [List.length_drop]; omega)]
          -- the last chunk ends with the bytes, and its address no longer matters
          by_cases hend : Chunks.first pgSize dst src.length < src.length
          · rw [add_first hend]
          · rw [List.drop_of_length_le (by omega), copyoutLoop_nil, copyoutLoop_nil]

/-- **`copyout`** is the loop over its range that writes. -/
theorem copyout_eq (fs : Fs) (pt : Frame) (dst : Nat) (src : List UInt8) :
    copyout fs pt dst src = (do
      let x ← Chunks.loop pgSize (reachPage fs pt true) putBytes dst src.length src
      pure (copyResult x.1)) := by
  rw [copyout, copyoutLoop_eq src.length le_rfl, bind_assoc]
  rfl

/-- A page is read as soon as it is mapped. -/
theorem reachPage_read (fs : Fs) (pt : Frame) (a : Nat) : reachPage fs pt false a =
    if maxVa ≤ pgRoundDown a then pure none else walkaddrFault fs pt (pgRoundDown a) false := by
  unfold reachPage
  congr 1
  rw [← bind_pure (walkaddrFault fs pt (pgRoundDown a) false), bind_assoc]
  congr 1
  funext o
  rw [pure_bind]
  cases o <;> rfl

theorem copyinLoop_zero (fs : Fs) (pt : Frame) (fuel src : Nat) (dst : List UInt8) :
    copyinLoop fs pt fuel src 0 dst = pure (0, dst) := by
  cases fuel <;> rfl

theorem copyinLoop_eq : ∀ fuel {src len : Nat} {dst : List UInt8}, len ≤ fuel →
    copyinLoop fs pt fuel src len dst = (do
      let x ← Chunks.loop pgSize (reachPage fs pt false) getBytes src len dst
      pure (copyResult x.1, x.2)) := by
  intro fuel
  induction fuel with
  | zero =>
    intro src len dst hlen
    obtain rfl : len = 0 := by omega
    rfl
  | succ fuel ih =>
    intro src len dst hlen
    rw [copyinLoop]
    by_cases hzero : len = 0
    · subst hzero
      rfl
    have hpos := Nat.pos_of_ne_zero hzero
    rw [if_neg hzero, Chunks.loop_of_pos (by decide) hpos, Chunks.round, reachPage_read]
    by_cases hmax : maxVa ≤ pgRoundDown src
    · rw [if_pos hmax, if_pos hmax, pure_bind, pure_bind]
      rfl
    rw [if_neg hmax, if_neg hmax, bind_assoc]
    congr 1
    funext o
    cases o with
    | none => rfl
    | some f =>
      dsimp only
      rw [getBytes, bind_assoc, bind_assoc, inPage_eq_first]
      congr 1
      funext u
      rw [pure_bind, if_neg Bool.false_ne_true]
      have hfirst := Chunks.first_pos (P := pgSize) (a := src) (by decide) hpos
      rw [← ih (by omega)]
      by_cases hend : Chunks.first pgSize src len < len
      · rw [add_first hend]
      · rw [Nat.sub_eq_zero_of_le (by omega), copyinLoop_zero, copyinLoop_zero]

/-- **`copyin`** is the loop over its range that reads. -/
theorem copyin_eq (fs : Fs) (pt : Frame) (src len : Nat) : copyin fs pt src len = (do
    let x ← Chunks.loop pgSize (reachPage fs pt false) getBytes src len []
    pure (copyResult x.1, x.2)) :=
  copyinLoop_eq len le_rfl

theorem copyinstrLoop_zero (fs : Fs) (pt : Frame) (fuel src : Nat) (dst : List UInt8) :
    copyinstrLoop fs pt fuel src 0 dst = pure (-1, dst) := by
  cases fuel <;> rfl

theorem copyinstrLoop_eq : ∀ fuel {src max : Nat} {dst : List UInt8}, max ≤ fuel →
    copyinstrLoop fs pt fuel src max dst = (do
      let x ← Chunks.loop pgSize (reachPage fs pt false) getString src max dst
      pure (stringResult x.1, x.2)) := by
  intro fuel
  induction fuel with
  | zero =>
    intro src max dst hmax
    obtain rfl : max = 0 := by omega
    rfl
  | succ fuel ih =>
    intro src max dst hmax
    rw [copyinstrLoop]
    by_cases hzero : max = 0
    · subst hzero
      rfl
    have hpos := Nat.pos_of_ne_zero hzero
    rw [if_neg hzero, Chunks.loop_of_pos (by decide) hpos, Chunks.round, reachPage_read]
    by_cases hhigh : maxVa ≤ pgRoundDown src
    · rw [if_pos hhigh, if_pos hhigh, pure_bind, pure_bind]
      rfl
    rw [if_neg hhigh, if_neg hhigh, bind_assoc]
    congr 1
    funext o
    cases o with
    | none => rfl
    | some f =>
      dsimp only
      rw [getString, bind_assoc, bind_assoc, inPage_eq_first]
      congr 1
      funext u
      rw [pure_bind]
      by_cases hnul : 0 ∈ u.mem.bytes f (src - pgRoundDown src) (Chunks.first pgSize src max)
      · rw [if_pos hnul, if_pos hnul]
        rfl
      · rw [if_neg hnul, if_neg hnul, if_neg Bool.false_ne_true]
        have hfirst := Chunks.first_pos (P := pgSize) (a := src) (by decide) hpos
        rw [← ih (by omega)]
        by_cases hend : Chunks.first pgSize src max < max
        · rw [add_first hend]
        · rw [Nat.sub_eq_zero_of_le (by omega), copyinstrLoop_zero, copyinstrLoop_zero]

/-- **`copyinstr`** is the loop over its range that reads up to the first NUL. -/
theorem copyinstr_eq (fs : Fs) (pt : Frame) (src max : Nat) : copyinstr fs pt src max = (do
    let x ← Chunks.loop pgSize (reachPage fs pt false) getString src max []
    pure (stringResult x.1, x.2)) :=
  copyinstrLoop_eq max le_rfl

/-! ## Reaching a page -/

/-- The frame that an entry leads to, when it permits the access. -/
def Pte.usable (w : Bool) (e : Pte) : Option Frame :=
  if e.perm.u && (!w || e.perm.w) then some e.ppn else none

/-- The frame of the page of `a`, when the user may access it. -/
def Mem.frameFor (m : Mem) (pt : Frame) (w : Bool) (a : Nat) : Option Frame :=
  if maxVa ≤ a then none else (m.lookup pt a).bind (Pte.usable w)

theorem usable_eq_some {e : Pte} {f : Frame} :
    e.usable w = some f ↔ e.perm.u = true ∧ (w = true → e.perm.w = true) ∧ e.ppn = f := by
  unfold Pte.usable
  cases e.perm.u <;> cases w <;> cases e.perm.w <;> simp

theorem frameFor_eq_some {f : Frame} : m.frameFor pt w a = some f ↔ a < maxVa ∧
    ∃ e, m.lookup pt a = some e ∧ e.perm.u = true ∧ (w = true → e.perm.w = true) ∧ e.ppn = f := by
  unfold Mem.frameFor
  by_cases hmax : maxVa ≤ a
  · rw [if_pos hmax]
    simp [hmax]
  · rw [if_neg hmax, Option.bind_eq_some_iff]
    simp only [usable_eq_some]
    exact ⟨fun h => ⟨Nat.lt_of_not_le hmax, h⟩, fun h => h.2⟩

theorem pgRoundDown_lt (h : a < maxVa) : ¬ maxVa ≤ pgRoundDown a := by
  unfold pgRoundDown
  simp only [maxVa, pgSize] at *
  omega

theorem pgRoundDown_high (h : maxVa ≤ a) : maxVa ≤ pgRoundDown a := by
  unfold pgRoundDown
  simp only [maxVa, pgSize] at *
  omega

theorem writableFrame_apply {f : Frame} {e : Pte} (ha : a < maxVa)
    (he : t.mem.lookup pt a = some e) :
    writableFrame pt a f t = .ok (if e.perm.w then some f else none, t) := by
  obtain ⟨g, hg, -, hpte⟩ := leaf_eq_some.mp ((lookup_eq_leaf t.mem pt a).symm.trans he)
  unfold writableFrame
  rw [bind_of_ok (onMem_walk ha), hg]
  dsimp only [Option.map_some]
  rw [bind_of_ok (onMem_readPte _ _ _), hpte]
  rfl

/-- What is left once the frame of a user page is found. -/
theorem reach_found {e : Pte} (ha : a < maxVa) (he : t.mem.lookup pt a = some e)
    (hu : e.perm.u = true) :
    (if w then writableFrame pt a e.ppn else pure (some e.ppn)) t = .ok (e.usable w, t) := by
  cases w with
  | true =>
    rw [if_pos rfl, writableFrame_apply ha he, Pte.usable, hu]
    rfl
  | false =>
    rw [if_neg Bool.false_ne_true, Pte.usable, hu]
    rfl

theorem reachPage_beyond (h : maxVa ≤ a) : reachPage fs pt w a t = .ok (none, t) := by
  rw [reachPage, if_pos (pgRoundDown_high h)]
  rfl

/-- A page that is mapped for the user is reached without a fault. -/
theorem reachPage_mapped {e : Pte} (ha : a < maxVa) (he : t.mem.lookup pt a = some e)
    (hu : e.perm.u = true) : reachPage fs pt w a t = .ok (e.usable w, t) := by
  have hlow := pgRoundDown_lt ha
  rw [← lookup_pgRoundDown] at he
  have hwalk : walkaddrFault fs pt (pgRoundDown a) w t = .ok (some e.ppn, t) := by
    unfold walkaddrFault
    rw [bind_of_ok (onMem_walkaddr (Nat.lt_of_not_le hlow)), he, Option.bind_some, if_pos hu]
    rfl
  rw [reachPage, if_neg hlow, bind_of_ok hwalk]
  exact reach_found (Nat.lt_of_not_le hlow) he hu

/-- A page that is not mapped for the user is reached through a fault. -/
theorem reachPage_fault (ha : a < maxVa)
    (hno : ∀ e, t.mem.lookup pt a = some e → e.perm.u = false) :
    reachPage fs pt w a t = (demandPageLoadNew fs (pgRoundDown a) w false >>= fun r t' =>
      .ok (if r = 0 then t'.mem.frameFor pt w a else none, t')) t := by
  have hlow := pgRoundDown_lt ha
  have hva := Nat.lt_of_not_le hlow
  have hnone : (t.mem.lookup pt (pgRoundDown a)).bind (fun e => if e.perm.u then some e.ppn
    else none) = none := by
    rw [lookup_pgRoundDown]
    cases he : t.mem.lookup pt a with
    | none => rfl
    | some e => rw [Option.bind_some, hno e he, if_neg Bool.false_ne_true]
  rw [reachPage, if_neg hlow, walkaddrFault, bind_assoc, bind_of_ok (onMem_walkaddr hva), hnone]
  dsimp only
  rw [bind_assoc, bind_apply, bind_apply]
  cases hf : demandPageLoadNew fs (pgRoundDown a) w false t with
  | error e => rfl
  | ok x =>
    obtain ⟨r, t₁⟩ := x
    dsimp only
    by_cases hr : r = 0
    · rw [if_pos hr, if_neg (not_not.mpr hr), bind_of_ok (onMem_walkaddr hva), Mem.frameFor,
        if_neg (Nat.not_le.mpr ha), lookup_pgRoundDown]
      cases he : t₁.mem.lookup pt a with
      | none => rfl
      | some e =>
        rw [Option.bind_some, Option.bind_some]
        cases hu : e.perm.u with
        | true =>
          rw [if_pos rfl]
          exact reach_found hva ((lookup_pgRoundDown t₁.mem pt a).trans he) hu
        | false =>
          rw [if_neg Bool.false_ne_true, Pte.usable, hu]
          rfl
    · rw [if_neg hr, if_pos hr]
      rfl

/-- The page is there. -/
theorem reachPage_resident {f : Frame} (h : t.mem.frameFor pt w a = some f) :
    reachPage fs pt w a t = .ok (some f, t) := by
  obtain ⟨ha, e, he, hu, hw, hf⟩ := frameFor_eq_some.mp h
  rw [reachPage_mapped ha he hu, usable_eq_some.mpr ⟨hu, hw, hf⟩]

/-- **What is reached** is the frame of a page that the user may access. -/
theorem reachPage_some {f : Frame} (h : reachPage fs pt w a t = .ok (some f, t')) :
    t'.mem.frameFor pt w a = some f := by
  by_cases hmax : maxVa ≤ a
  · rw [reachPage_beyond hmax] at h
    cases h
  have ha := Nat.lt_of_not_le hmax
  by_cases hmap : ∃ e, t.mem.lookup pt a = some e ∧ e.perm.u = true
  · obtain ⟨e, he, hu⟩ := hmap
    rw [reachPage_mapped ha he hu] at h
    obtain ⟨hf, rfl⟩ := Prod.mk.inj (Except.ok.inj h)
    rw [Mem.frameFor, if_neg hmax, he]
    exact hf
  · rw [reachPage_fault ha fun e he => Bool.eq_false_iff.mpr fun hu => hmap ⟨e, he, hu⟩] at h
    obtain ⟨r, t₁, -, hr⟩ := bind_eq_ok.mp h
    obtain ⟨hf, rfl⟩ := Prod.mk.inj (Except.ok.inj hr)
    split at hf
    · exact hf
    · cases hf

/-- Reaching a page leaves the task as it is, or takes a fault on it. -/
theorem reachPage_task {o : Option Frame} (h : reachPage fs pt w a t = .ok (o, t')) :
    t' = t ∨ ∃ r, demandPageLoadNew fs (pgRoundDown a) w false t = .ok (r, t') := by
  by_cases hmax : maxVa ≤ a
  · rw [reachPage_beyond hmax] at h
    cases h
    exact Or.inl rfl
  have ha := Nat.lt_of_not_le hmax
  by_cases hmap : ∃ e, t.mem.lookup pt a = some e ∧ e.perm.u = true
  · obtain ⟨e, he, hu⟩ := hmap
    rw [reachPage_mapped ha he hu] at h
    cases h
    exact Or.inl rfl
  · rw [reachPage_fault ha fun e he => Bool.eq_false_iff.mpr fun hu => hmap ⟨e, he, hu⟩] at h
    obtain ⟨r, t₁, hf, hr⟩ := bind_eq_ok.mp h
    obtain ⟨-, rfl⟩ := Prod.mk.inj (Except.ok.inj hr)
    exact Or.inr ⟨r, hf⟩

/-! ## The page table of a copy -/

/-- **The page table of a copy** is that of the process, or belongs to an address space apart from
it. -/
inductive CopyTable (t : Task) (pt : Frame) : Prop
  | mine {tf : Frame} {own : Set Frame} (h : TaskOk t pt tf own) : CopyTable t pt
  | apart {root tf tfo : Frame} {own owno : Set Frame} (h : TaskOk t root tf own)
      (h' : Apart t.mem pt tfo owno own) : CopyTable t pt

theorem CopyTable.user (h : CopyTable t pt) : ∃ tf own, UserSpace t.mem pt tf own := by
  cases h with
  | mine h => exact ⟨_, _, h.space⟩
  | apart _ h' => exact ⟨_, _, h'.user⟩

theorem CopyTable.fault {r : Int} (h : CopyTable t pt)
    (hrun : demandPageLoadNew fs a w false t = .ok (r, t')) :
    CopyTable t' pt := by
  cases h with
  | mine h =>
    obtain ⟨own', h₁, -⟩ := h.fault hrun
    exact .mine h₁
  | apart h h' =>
    obtain ⟨own', h₁, hacts, -⟩ := h.fault hrun
    exact .apart h₁ (h'.acts hacts)

theorem CopyTable.setBytes {e : Pte} (h : CopyTable t pt) (he : t.mem.lookup pt a = some e)
    (hu : e.perm.u = true)
    (off : Nat) (bs : List UInt8) : CopyTable ⟨t.mem.setBytes e.ppn off bs, t.p⟩ pt := by
  cases h with
  | mine h => exact .mine (h.setBytes he hu off bs).1
  | apart h h' =>
    obtain ⟨huser, -⟩ := h'.user.setByte (h'.user.lookup_own he hu) _
    have hspace : UserSpace (t.mem.setBytes e.ppn off bs) _ _ _ :=
      h.space.congr (fun f _ => pte_setBytes ..) ⟨h.space.space.owned.nodup,
        h.space.space.owned.disjoint⟩ rfl
        fun f hf => ⟨(h.space.not_free hf).1, (h.space.not_free hf).2.1⟩
    exact .apart ⟨h.pagetable, h.trapframe, hspace, h.size, h.resident, h.swapped⟩
      ⟨huser, h'.disjoint, h'.tramp, h'.trapframe⟩

/-- A page that is mapped, but not for the user, is that of the trap frame or the trampoline. -/
theorem CopyTable.high {e : Pte} (h : CopyTable t pt) (he : t.mem.lookup pt a = some e)
    (hu : e.perm.u = false) : trapframeVa ≤ a := by
  obtain ⟨tf, own, huser⟩ := h.user
  by_contra hlow
  rw [huser.user (Nat.lt_of_not_le hlow) he] at hu
  cases hu

/-- The two highest pages are never reached. -/
theorem CopyTable.frameFor_high (h : CopyTable t pt) (ha : trapframeVa ≤ a) :
    t.mem.frameFor pt w a = none := by
  obtain ⟨tf, own, huser⟩ := h.user
  by_contra hc
  obtain ⟨f, hf⟩ := Option.ne_none_iff_exists'.mp hc
  obtain ⟨hmax, e, he, hu, -⟩ := frameFor_eq_some.mp hf
  exact absurd ha (Nat.not_le.mpr (huser.low_of_user hmax he hu))

/-- **A page is refused**: what a copy finds when it does not get at the page of `a`, and
the task that it leaves. -/
inductive Refused (fs : Fs) (pt : Frame) (w : Bool) (a : Nat) : Task → Task → Prop
  /-- the page is at `MAXVA` or above -/
  | beyond {t : Task} (high : maxVa ≤ a) : Refused fs pt w a t t
  /-- the page lacks `PTE_U` -/
  | noUser {t t' : Task} {e : Pte} {r : Int} (low : a < maxVa) (mapped : t.mem.lookup pt a = some e)
      (user : e.perm.u = false) (fault : demandPageLoadNew fs (pgRoundDown a) w false t = .ok (r,
        t')) :
      Refused fs pt w a t t'
  /-- the page is to be written and lacks `PTE_W` -/
  | readOnly {t : Task} {e : Pte} (low : a < maxVa) (mapped : t.mem.lookup pt a = some e)
      (user : e.perm.u = true)
      (write : w = true) (readOnly : e.perm.w = false) : Refused fs pt w a t t
  /-- the page is not mapped, and refused by the fault handler -/
  | unmapped {t t' : Task} {r : Int} (low : a < maxVa) (unmapped : t.mem.lookup pt a = none)
      (fault : demandPageLoadNew fs (pgRoundDown a) w false t = .ok (r, t')) (refused : r ≠ 0) :
      Refused fs pt w a t t'
  /-- the page is to be written, and is loaded without `PTE_W` -/
  | loadedReadOnly {t t' : Task} {e : Pte} (low : a < maxVa) (unmapped : t.mem.lookup pt a = none)
      (fault : demandPageLoadNew fs (pgRoundDown a) w false t = .ok (0, t'))
      (loaded : t'.mem.lookup pt a = some e)
      (write : w = true) (readOnly : e.perm.w = false) : Refused fs pt w a t t'
  /-- the page is not mapped in a page table that is not that of the process -/
  | elsewhere {t t' : Task} (low : a < maxVa) (unmapped : t.mem.lookup pt a = none)
      (fault : demandPageLoadNew fs (pgRoundDown a) w false t = .ok (0, t'))
      (other : t.p.pagetable ≠ some pt) (still : t'.mem.lookup pt a = none) : Refused fs pt w a t t'

theorem noUser_of_unmapped (h : m.lookup pt a = none) (e : Pte) (he : m.lookup pt a = some e) :
    e.perm.u = false := by
  rw [h] at he
  cases he

/-- **A page is not reached** exactly when it is refused. -/
theorem reachPage_none (h : CopyTable t pt) : reachPage fs pt w a t = .ok (none, t') ↔
    Refused fs pt w a t t' := by
  constructor
  · intro hrun
    by_cases hmax : maxVa ≤ a
    · rw [reachPage_beyond hmax] at hrun
      cases hrun
      exact .beyond hmax
    have ha := Nat.lt_of_not_le hmax
    by_cases hmap : ∃ e, t.mem.lookup pt a = some e ∧ e.perm.u = true
    · obtain ⟨e, he, hu⟩ := hmap
      rw [reachPage_mapped ha he hu] at hrun
      obtain ⟨hnone, rfl⟩ := Prod.mk.inj (Except.ok.inj hrun)
      unfold Pte.usable at hnone
      rw [hu] at hnone
      cases w with
      | false => cases hnone
      | true =>
        refine .readOnly ha he hu rfl (Bool.eq_false_iff.mpr fun hw => ?_)
        rw [hw] at hnone
        cases hnone
    have hno : ∀ e, t.mem.lookup pt a = some e → e.perm.u = false := fun e he =>
      Bool.eq_false_iff.mpr fun hu => hmap ⟨e, he, hu⟩
    rw [reachPage_fault ha hno] at hrun
    obtain ⟨r, t₁, hf, hr⟩ := bind_eq_ok.mp hrun
    obtain ⟨hnone, rfl⟩ := Prod.mk.inj (Except.ok.inj hr)
    cases he : t.mem.lookup pt a with
    | some e => exact .noUser ha he (hno e he) hf
    | none =>
      by_cases hr0 : r = 0
      · subst hr0
        rw [if_pos rfl] at hnone
        cases h with
        | mine h =>
          obtain ⟨own', h₁, -, hfault⟩ := h.fault hf
          cases hfault with
          | present _ mapped =>
            rw [lookup_pgRoundDown, he] at mapped
            cases mapped
          | loaded _ _ _ _ _ pageIn =>
            -- what was loaded is a user page, so that it is the write that it does not permit
            obtain ⟨f, hf', -⟩ := pageIn.page
            rw [lookup_pgRoundDown] at hf'
            rw [Mem.frameFor, if_neg hmax, hf', Option.bind_some, Pte.usable, loadPerm_u] at hnone
            cases w with
            | false => cases hnone
            | true =>
              refine .loadedReadOnly ha he hf hf' rfl (Bool.eq_false_iff.mpr fun hw => ?_)
              rw [hw] at hnone
              cases hnone
        | apart h h' =>
          obtain ⟨own', h₁, hacts, -⟩ := h.fault hf
          refine .elsewhere ha he hf (fun hc => ?_) ((h'.lookup hacts a).trans he)
          obtain rfl := Option.some.inj (h.pagetable.symm.trans hc)
          exact h'.disjoint _ (h'.user.space.table_own (p := []) (by simp) rfl)
            (h.space.space.table_own (p := []) (by simp) rfl)
      · exact .unmapped ha he hf hr0
  · intro href
    cases href with
    | beyond high => exact reachPage_beyond high
    | readOnly low mapped user write readOnly =>
      rw [reachPage_mapped low mapped user, Pte.usable, user, write, readOnly]
      rfl
    | noUser low mapped user fault =>
      rw [reachPage_fault low (fun e he => Option.some.inj (mapped.symm.trans he) ▸ user),
        bind_of_ok fault, (h.fault fault).frameFor_high (h.high mapped user), ite_self]
    | unmapped low unmapped fault refused =>
      rw [reachPage_fault low (noUser_of_unmapped unmapped), bind_of_ok fault, if_neg refused]
    | loadedReadOnly low unmapped fault loaded write readOnly =>
      rw [reachPage_fault low (noUser_of_unmapped unmapped), bind_of_ok fault, if_pos rfl,
        Mem.frameFor, if_neg (Nat.not_le.mpr low), loaded, Option.bind_some, Pte.usable,
        write, readOnly]
      simp
    | elsewhere low unmapped fault other still =>
      rw [reachPage_fault low (noUser_of_unmapped unmapped), bind_of_ok fault, if_pos rfl,
        Mem.frameFor, if_neg (Nat.not_le.mpr low), still]
      rfl

/-! ## Ranges of resident pages -/

/-- **All pages of the range are resident**, with `PTE_U`, and with `PTE_W` when it is to be
written. -/
def Mem.InPlace (m : Mem) (pt : Frame) (w : Bool) (a n : Nat) : Prop :=
  ∀ k < n, ∃ f, m.frameFor pt w (a + k) = some f

/-- The byte that the user sees at `a`. -/
def Mem.userByte (m : Mem) (pt : Frame) (a : Nat) : UInt8 :=
  match m.lookup pt a with
  | some e => (m.phys e.ppn).byte (a % pgSize)
  | none => 0

/-- The `n` bytes that the user sees from `a` on. -/
def Mem.userBytes (m : Mem) (pt : Frame) (a n : Nat) : List UInt8 :=
  (List.range n).map fun k => m.userByte pt (a + k)

@[simp] theorem length_userBytes (m : Mem) (pt : Frame) (a n : Nat) :
    (m.userBytes pt a n).length = n := by
  simp [Mem.userBytes]

theorem userBytes_add (m : Mem) (pt : Frame) (a n k : Nat) :
    m.userBytes pt a (n + k) = m.userBytes pt a n ++ m.userBytes pt (a + n) k := by
  unfold Mem.userBytes
  rw [List.range_add, List.map_append, List.map_map]
  congr 1
  apply List.map_congr_left
  intro i _
  rw [Function.comp_apply, Nat.add_assoc]

theorem userByte_of_frameFor {f : Frame} (h : m.frameFor pt w a = some f) {k : Nat}
    (hk : k < Chunks.first pgSize a n) :
    m.userByte pt (a + k) = (m.phys f).byte (a - pgRoundDown a + k) := by
  obtain ⟨-, e, he, -, -, rfl⟩ := frameFor_eq_some.mp h
  unfold Chunks.first at hk
  have hpage : (a + k) / pgSize = a / pgSize := by
    simp only [pgSize] at *
    omega
  have hoff : (a + k) % pgSize = a - pgRoundDown a + k := by
    unfold pgRoundDown
    simp only [pgSize] at *
    omega
  unfold Mem.userByte
  rw [lookup_of_page hpage, he, hoff]

/-- The bytes of a frame are those that the user sees in its page. -/
theorem bytes_eq_userBytes {f : Frame} (h : m.frameFor pt w a = some f) :
    m.bytes f (a - pgRoundDown a) (Chunks.first pgSize a n) =
    m.userBytes pt a (Chunks.first pgSize a n) := by
  unfold Mem.bytes Mem.userBytes
  apply List.map_congr_left
  intro k hk
  exact (userByte_of_frameFor h (List.mem_range.mp hk)).symm

/-- **What is read** of the `len` bytes from `src` on when `n` bytes, from `a` on, are left. -/
structure ReadTo (t : Task) (pt src len a n : Nat) (dst : List UInt8) (t₁ : Task) : Prop where
  task : t₁ = t
  left : n ≤ len
  place : src + (len - n) = a
  bytes : dst = t.mem.userBytes pt src (len - n)

theorem ReadTo.start (t : Task) (pt src len : Nat) : ReadTo t pt src len src len [] t := by
  refine ⟨rfl, le_rfl, ?_, ?_⟩
  · rw [Nat.sub_self, Nat.add_zero]
  · rw [Nat.sub_self]
    rfl

/-- One page more is read. -/
theorem ReadTo.next {src len : Nat} {dst : List UInt8} {t₁ : Task} {f : Frame}
    (h : ReadTo t pt src len a n dst t₁) (hf : t.mem.frameFor pt w a = some f) :
    ReadTo t pt src len (a + Chunks.first pgSize a n) (n - Chunks.first pgSize a n)
      (dst ++ t₁.mem.bytes f (a - pgRoundDown a) (Chunks.first pgSize a n)) t₁ := by
  obtain ⟨rfl, hleft, rfl, rfl⟩ := h
  have hfirst := Chunks.first_le pgSize (src + (len - n)) n
  have hlen : len - (n - Chunks.first pgSize (src + (len - n)) n) =
      len - n + Chunks.first pgSize (src + (len - n)) n := by omega
  refine ⟨rfl, by omega, by omega, ?_⟩
  rw [bytes_eq_userBytes hf, hlen, userBytes_add]

/-- **`copyin` of resident pages** returns exactly the bytes and changes nothing. -/
theorem copyin_resident (fs : Fs) {src len : Nat} (h : t.mem.InPlace pt false src len) :
    copyin fs pt src len t = .ok ((0, t.mem.userBytes pt src len), t) := by
  have hloop := Chunks.loop_total (reachPage fs pt false) getBytes (P := pgSize) (by decide)
    (I := ReadTo t pt src len) (Q := fun _ _ => False) (fun a n dst t₁ hn hread => by
      obtain ⟨f, hf⟩ := h (len - n) (by have := hread.left; omega)
      rw [hread.place] at hf
      have hnext := hread.next (n := n) hf
      exact ⟨f, t₁, _, t₁, reachPage_resident (hread.task ▸ hf), Or.inl ⟨rfl, hnext⟩⟩)
    src len [] t (.start t pt src len)
  rw [copyin_eq]
  rcases hloop with ⟨a', dst, t₁, hrun, rfl, -, -, rfl⟩ | ⟨-, -, -, hQ⟩
  · rw [bind_of_ok hrun]
    rfl
  · exact hQ.elim

/-- A list up to its first NUL. -/
theorem takeWhile_userBytes {c j : Nat} (hj : j < c) (hne : ∀ k < j, m.userByte pt (a + k) ≠ 0)
    (h0 : m.userByte pt (a + j) = 0) :
    (m.userBytes pt a c).takeWhile (· ≠ 0) ++ [0] = m.userBytes pt a (j + 1) := by
  obtain ⟨d, rfl⟩ := Nat.exists_eq_add_of_lt hj
  have hsplit : m.userBytes pt a (j + d + 1) = m.userBytes pt a j ++
    m.userBytes pt (a + j) (1 + d) := by
    rw [← userBytes_add]
    congr 1
    omega
  have hone : m.userBytes pt (a + j) 1 = [0] := by
    simp [Mem.userBytes, h0]
  have hpre : ∀ b ∈ m.userBytes pt a j, decide (b ≠ 0) = true := by
    intro b hb
    obtain ⟨k, hk, rfl⟩ := List.mem_map.mp hb
    exact decide_eq_true (hne k (List.mem_range.mp hk))
  rw [hsplit, List.takeWhile_append_of_pos hpre, userBytes_add, hone, userBytes_add, hone]
  simp

/-- **`copyinstr` of resident pages** returns what there is up to the first NUL. -/
theorem copyinstr_resident (fs : Fs) {src max : Nat} (hn : n ≤ max)
    (h : t.mem.InPlace pt false src (min (n + 1) max))
    (hne : ∀ k < n, t.mem.userByte pt (src + k) ≠ 0)
    (hend : n < max → t.mem.userByte pt (src + n) = 0) : copyinstr fs pt src max t =
      .ok (if n < max then (0, t.mem.userBytes pt src (n + 1))
        else (-1, t.mem.userBytes pt src max), t) := by
  have hloop := Chunks.loop_total (reachPage fs pt false) getString (P := pgSize) (by decide)
    (I := fun a r dst t₁ => ReadTo t pt src max a r dst t₁ ∧ max - r ≤ n)
    (Q := fun dst t₁ => n < max ∧ dst = t.mem.userBytes pt src (n + 1) ∧ t₁ = t)
    (fun a r dst t₁ hr hread => by
      obtain ⟨hread, hle⟩ := hread
      have hleft := hread.left
      obtain ⟨f, hf⟩ := h (max - r) (by omega)
      rw [hread.place] at hf
      have hnext := hread.next (n := r) hf
      have hbytes := bytes_eq_userBytes (n := r) hf
      obtain ⟨rfl, -, hplace, rfl⟩ := hread
      have hfirst := Chunks.first_le pgSize a r
      refine ⟨f, t₁, ?_⟩
      by_cases hin : n - (max - r) < Chunks.first pgSize a r
      · -- the first NUL is in this page
        have hnul : t₁.mem.userByte pt (a + (n - (max - r))) = 0 := by
          rw [← hplace, Nat.add_assoc, Nat.add_sub_cancel' hle]
          exact hend (by omega)
        have hbefore : ∀ k < n - (max - r), t₁.mem.userByte pt (a + k) ≠ 0 := by
          intro k hk
          rw [← hplace, Nat.add_assoc]
          exact hne _ (by omega)
        have hmem : 0 ∈ t₁.mem.bytes f (a - pgRoundDown a) (Chunks.first pgSize a r) := by
          rw [hbytes]
          exact List.mem_map.mpr ⟨_, List.mem_range.mpr hin, hnul⟩
        refine ⟨_, t₁, reachPage_resident hf, Or.inr ⟨?_, by omega, rfl, rfl⟩⟩
        rw [getString, bind_of_ok (get_apply _), if_pos hmem, hbytes, List.append_assoc,
          takeWhile_userBytes hin hbefore hnul, ← hplace, ← userBytes_add, ← Nat.add_assoc,
          Nat.add_sub_cancel' hle]
        rfl
      · have hmem : ¬ 0 ∈ t₁.mem.bytes f (a - pgRoundDown a) (Chunks.first pgSize a r) := by
          rw [hbytes]
          intro hc
          obtain ⟨k, hk, hz⟩ := List.mem_map.mp hc
          rw [List.mem_range] at hk
          rw [← hplace, Nat.add_assoc] at hz
          exact hne _ (by omega) hz
        refine ⟨_, t₁, reachPage_resident hf, Or.inl ⟨?_, hnext, by omega⟩⟩
        rw [getString, bind_of_ok (get_apply _), if_neg hmem]
        rfl)
    src max [] t ⟨.start t pt src max, by omega⟩
  rw [copyinstr_eq]
  rcases hloop with ⟨a', dst, t₁, hrun, ⟨rfl, -, -, rfl⟩, hle⟩ | ⟨dst, t₁, hrun, hlt, rfl, rfl⟩
  · rw [bind_of_ok hrun, if_neg (by omega)]
    rfl
  · rw [bind_of_ok hrun, if_pos hlt]
    rfl

/-! ## Writing resident pages -/

/-- **Exactly the bytes of the range are written**: those of `src` are at the places that the user
sees from `dst` on, and every other byte of the memory is as it was. -/
structure Written (m : Mem) (pt dst : Nat) (src : List UInt8) (m' : Mem) : Prop where
  inside : ∀ k b, src[k]? = some b → ∀ e, m.lookup pt (dst + k) = some e →
    (m'.phys e.ppn).byte ((dst + k) % pgSize) = b
  outside : ∀ f off,
    (∀ k < src.length, ∀ e, m.lookup pt (dst + k) = some e → e.ppn = f → (dst + k) % pgSize ≠ off) →
    (m'.phys f).byte off = (m.phys f).byte off
  tables : ∀ f, (m'.phys f).pte = (m.phys f).pte
  rest : m' = { m with phys := m'.phys }

theorem byte_setBytes (m : Mem) (f g : Frame) (off k : Nat) (bs : List UInt8) :
    ((m.setBytes f off bs).phys g).byte k =
      if g = f ∧ off ≤ k ∧ k < off + bs.length then bs.getD (k - off) 0 else (m.phys g).byte k := by
  unfold Mem.setBytes Mem.setPage
  by_cases hg : g = f
  · subst hg
    simp
  · simp [hg]

theorem Written.nil (m : Mem) (pt dst : Nat) : Written m pt dst [] m where
  inside k b hb := by simp at hb
  outside _ _ _ := rfl
  tables _ := rfl
  rest := rfl

theorem Written.lookup {dst : Nat} {src : List UInt8} (h : Written m pt dst src m') (root : Frame)
    (va : Nat) : m'.lookup root va = m.lookup root va := by
  unfold Mem.lookup
  simp only [h.tables]

/-- The part of a list from `j` on that is `c` long. -/
theorem getElem?_take_drop {α : Type} {l : List α} {j c k : Nat} (hj : j ≤ k) (hk : k < j + c) :
    ((l.drop j).take c)[k - j]? = l[k]? := by
  rw [List.getElem?_take_of_lt (by omega), List.getElem?_drop, Nat.add_sub_cancel' hj]

/-- **One page more is written.** -/
theorem Written.next (hsp : UserSpace m pt tf own) {dst j c : Nat} {src : List UInt8} {f : Frame}
    (h : Written m pt dst (src.take j) m') (hlow : ∀ k < j + c, dst + k < maxVa)
    (hf : m.frameFor pt w (dst + j) = some f) (hc : c ≤ pgSize - (dst + j) % pgSize)
    (hlen : j + c ≤ src.length) : Written m pt dst (src.take (j + c))
      (m'.setBytes f (dst + j - pgRoundDown (dst + j)) ((src.drop j).take c)) := by
  obtain ⟨ha, e, he, -, -, rfl⟩ := frameFor_eq_some.mp hf
  have hoff : dst + j - pgRoundDown (dst + j) = (dst + j) % pgSize := by
    unfold pgRoundDown
    simp only [pgSize]
    omega
  have hclen : ((src.drop j).take c).length = c := by
    rw [List.length_take, List.length_drop]
    omega
  have hmod := Nat.mod_lt (dst + j) (by decide : 0 < pgSize)
  -- what is written now lies in the page of `dst + j`
  have hpage : ∀ k, j ≤ k → k < j + c → (dst + k) / pgSize = (dst + j) / pgSize ∧
      (dst + k) % pgSize = (dst + j) % pgSize + (k - j) := by
    intro k hk hk'
    simp only [pgSize] at *
    omega
  rw [hoff]
  refine ⟨fun k b hb e' he' => ?_, fun g off hno => ?_, fun g => ?_, ?_⟩
  · have hk : k < j + c := by
      by_contra hge
      rw [List.getElem?_eq_none (by rw [List.length_take]; omega)] at hb
      cases hb
    rw [List.getElem?_take_of_lt hk] at hb
    rw [byte_setBytes, hclen]
    by_cases hjk : j ≤ k
    · obtain ⟨hp, hm⟩ := hpage k hjk hk
      rw [lookup_of_page hp, he] at he'
      obtain rfl := Option.some.inj he'
      rw [hm, if_pos ⟨rfl, by omega, by omega⟩, Nat.add_sub_cancel_left, List.getD_eq_getElem?_getD,
        getElem?_take_drop hjk hk, hb]
      rfl
    · have hold := h.inside k b (by rw [List.getElem?_take_of_lt (by omega)]; exact hb) e' he'
      rw [if_neg, hold]
      rintro ⟨hfe, hlo, hhi⟩
      have hp := hsp.space.page_eq (hlow k hk) ha he' he hfe
      simp only [pgSize] at *
      omega
  · have hjlen : (src.take (j + c)).length = j + c := by
      rw [List.length_take]
      omega
    rw [hjlen] at hno
    rw [byte_setBytes, hclen, if_neg, h.outside g off fun k hk e' he' => hno k (by
      rw [List.length_take] at hk
      omega) e' he']
    rintro ⟨rfl, hlo, hhi⟩
    obtain ⟨hp, hm⟩ := hpage (j + (off - (dst + j) % pgSize)) (by omega) (by omega)
    refine hno (j + (off - (dst + j) % pgSize)) (by omega) e ?_ rfl (by omega)
    rw [lookup_of_page hp, he]
  · rw [pte_setBytes, h.tables]
  · have hrest := h.rest
    unfold Mem.setBytes Mem.setPage
    rw [hrest]

/-- **`copyout` to resident pages** writes exactly the range. -/
theorem copyout_resident (fs : Fs) (hpt : CopyTable t pt) {dst : Nat} {src : List UInt8}
    (h : t.mem.InPlace pt true dst src.length) :
    ∃ m', copyout fs pt dst src t = .ok (0, ⟨m', t.p⟩) ∧ Written t.mem pt dst src m' := by
  obtain ⟨tf, own, hsp⟩ := hpt.user
  have hlow : ∀ k < src.length, dst + k < maxVa := by
    intro k hk
    obtain ⟨f, hf⟩ := h k hk
    exact (frameFor_eq_some.mp hf).1
  have hloop := Chunks.loop_total (reachPage fs pt true) putBytes (P := pgSize) (by decide)
    (I := fun a n left t₁ => n ≤ src.length ∧ dst + (src.length - n) = a ∧
     left = src.drop (src.length - n) ∧
      t₁.p = t.p ∧ Written t.mem pt dst (src.take (src.length - n)) t₁.mem)
    (Q := fun _ _ => False) (fun a n left t₁ hn hI => by
      obtain ⟨hle, rfl, rfl, hp, hwr⟩ := hI
      obtain ⟨f, hf⟩ := h (src.length - n) (by omega)
      have hf₁ : t₁.mem.frameFor pt true (dst + (src.length - n)) = some f := by
        unfold Mem.frameFor
        rw [hwr.lookup]
        exact hf
      have hfirst := Chunks.first_le pgSize (dst + (src.length - n)) n
      have hin : Chunks.first pgSize (dst + (src.length - n)) n ≤
          pgSize - (dst + (src.length - n)) % pgSize := Nat.min_le_left _ _
      have hnext := hwr.next hsp (fun k hk => hlow k (by omega)) hf hin (by omega)
      have hlen : src.length - (n - Chunks.first pgSize (dst + (src.length - n)) n) =
          src.length - n + Chunks.first pgSize (dst + (src.length - n)) n := by omega
      refine ⟨f, t₁, _, _, reachPage_resident hf₁, Or.inl ⟨rfl, by omega, by omega, ?_, hp, ?_⟩⟩
      · rw [hlen, List.drop_drop]
      · rw [hlen]
        exact hnext)
    dst src.length src t ⟨le_rfl, by omega, by rw [Nat.sub_self]; rfl, rfl, by
      rw [Nat.sub_self]
      exact Written.nil t.mem pt dst⟩
  rw [copyout_eq]
  rcases hloop with ⟨a', left, t₁, hrun, -, -, -, hp, hwr⟩ | ⟨-, -, -, hQ⟩
  · refine ⟨t₁.mem, ?_, ?_⟩
    · rw [bind_of_ok hrun, ← hp]
      rfl
    · rw [Nat.sub_zero, List.take_length] at hwr
      exact hwr
  · exact hQ.elim

/-- What the user sees of a write. -/
theorem Written.userByte (hsp : UserSpace m pt tf own) {dst : Nat} {src : List UInt8}
    (h : Written m pt dst src m')
    (hin : m.InPlace pt true dst src.length) {va : Nat} (hva : va < maxVa) :
    m'.userByte pt va = if dst ≤ va ∧ va < dst + src.length then src.getD (va - dst) 0
    else m.userByte pt va := by
  unfold Mem.userByte
  rw [h.lookup]
  by_cases hrange : dst ≤ va ∧ va < dst + src.length
  · rw [if_pos hrange]
    obtain ⟨f, hf⟩ := hin (va - dst) (by omega)
    obtain ⟨-, e, he, -, -, rfl⟩ := frameFor_eq_some.mp hf
    have hb : src[va - dst]? = some (src.getD (va - dst) 0) := by
      rw [List.getD_eq_getElem?_getD, List.getElem?_eq_getElem (by omega)]
      rfl
    have hbyte := h.inside _ _ hb e he
    rw [Nat.add_sub_cancel' hrange.1] at he hbyte
    rw [he]
    exact hbyte
  · rw [if_neg hrange]
    cases he : m.lookup pt va with
    | none => rfl
    | some e =>
      refine h.outside _ _ fun k hk e' he' hfe hoff => hrange ?_
      obtain ⟨f, hf⟩ := hin k hk
      have hp := hsp.space.page_eq (frameFor_eq_some.mp hf).1 hva he' he hfe
      simp only [pgSize] at *
      omega

/-! ## The steps of a copy -/

/-- **A step of a copy** of the `n` bytes of `src` at `a`, to user memory when `w`: a page fault in
the range, or a store of bytes of `src` at their place in a page that the user may write. -/
inductive CopyStep (fs : Fs) (pt : Frame) (w : Bool) (a n : Nat) (src : List UInt8) :
    Task → Task → Prop
  | fault {t t' : Task} {k : Nat} {r : Int} (range : k < n)
      (fault : demandPageLoadNew fs (pgRoundDown (a + k)) w false t = .ok (r, t')) :
      CopyStep fs pt w a n src t t'
  | store {t : Task} {k c : Nat} {f : Frame} (write : w = true) (range : k + c ≤ n)
      (page : (a + k) % pgSize + c ≤ pgSize) (user : t.mem.frameFor pt true (a + k) = some f) :
      CopyStep fs pt w a n src t ⟨t.mem.setBytes f ((a + k) % pgSize) ((src.drop k).take c), t.p⟩

variable {k : Nat} {src dst : List UInt8} {r : Int} {e : Chunks.End}

theorem CopyTable.step (h : CopyTable t pt) (hs : CopyStep fs pt w a n src t t') :
    CopyTable t' pt := by
  cases hs with
  | fault _ fault => exact h.fault fault
  | store _ _ _ user =>
    obtain ⟨-, e, he, hu, -, rfl⟩ := frameFor_eq_some.mp user
    exact h.setBytes he hu _ _

theorem CopyTable.steps (h : CopyTable t pt)
    (hs : Relation.ReflTransGen (CopyStep fs pt w a n src) t t') :
    CopyTable t' pt := by
  induction hs with
  | refl => exact h
  | tail _ hstep ih => exact ih.step hstep

/-- Reaching a page of the range is a step, or none. -/
theorem CopyStep.reach {o : Option Frame} (hk : k < n)
    (h : reachPage fs pt w (a + k) t = .ok (o, t')) :
    Relation.ReflTransGen (CopyStep fs pt w a n src) t t' := by
  rcases reachPage_task h with rfl | ⟨r, hf⟩
  · exact .refl
  · exact .single (.fault hk hf)

/-- **How far a copy has got** when `r` bytes, from `a'` on, are left: by steps of the copy, and
below the trap frame. -/
structure CopySteps (fs : Fs) (pt : Frame) (w : Bool) (a n : Nat) (src : List UInt8) (t : Task)
    (a' r : Nat) (t' : Task) : Prop where
  left : r ≤ n
  place : a + (n - r) = a'
  steps : Relation.ReflTransGen (CopyStep fs pt w a n src) t t'
  below : ∀ k < n - r, a + k < trapframeVa

theorem CopySteps.start (fs : Fs) (pt : Frame) (w : Bool) (a n : Nat) (src : List UInt8)
    (t : Task) :
    CopySteps fs pt w a n src t a n t :=
  ⟨le_rfl, by omega, .refl, fun k hk => by omega⟩

variable {a' r' : Nat} {t₁ t₂ : Task}

theorem CopySteps.reach {o : Option Frame} (h : CopySteps fs pt w a n src t a' r' t₁) (hr : 0 < r')
    (hrun : reachPage fs pt w a' t₁ = .ok (o, t₂)) : CopySteps fs pt w a n src t a' r' t₂ := by
  obtain ⟨hleft, rfl, hsteps, hbelow⟩ := h
  exact ⟨hleft, rfl, hsteps.trans (CopyStep.reach (by omega) hrun), hbelow⟩

/-- The bytes of one page more are moved. -/
theorem CopySteps.next {f : Frame} (h : CopySteps fs pt w a n src t a' r' t₁) (hpt : CopyTable t pt)
    (hf : t₁.mem.frameFor pt w a' = some f)
    (hs : Relation.ReflTransGen (CopyStep fs pt w a n src) t₁ t₂) :
    CopySteps fs pt w a n src t (a' + Chunks.first pgSize a' r') (r' - Chunks.first pgSize a' r')
    t₂ := by
  obtain ⟨hleft, rfl, hsteps, hbelow⟩ := h
  have hfirst := Chunks.first_le pgSize (a + (n - r')) r'
  refine ⟨by omega, by omega, hsteps.trans hs, fun k hk => ?_⟩
  by_cases hlt : k < n - r'
  · exact hbelow k hlt
  · -- the page is reached, so it is below the trap frame as a whole
    have hlow : ¬ trapframeVa ≤ a + (n - r') := fun hc => by
      rw [(hpt.steps hsteps).frameFor_high hc] at hf
      cases hf
    unfold Chunks.first at hk
    simp only [trapframeVa, trampolineVa, maxVa, pgSize] at *
    omega

/-- **The loop of `copyout`** takes steps of the copy. -/
theorem putLoop_steps (hpt : CopyTable t pt) {a : Nat}
    (hrun : Chunks.loop pgSize (reachPage fs pt true) putBytes a n src t = .ok ((e, dst), t')) :
    (e = .through ∧ ∃ a', CopySteps fs pt true a n src t a' 0 t') ∨
      e = .refused ∧ ∃ a' r, CopySteps fs pt true a n src t a' r t' := by
  rcases Chunks.loop_keeps (reachPage fs pt true) putBytes (P := pgSize) (by decide)
      (I := fun a' r left t₁ => CopySteps fs pt true a n src t a' r t₁ ∧ left = src.drop (n - r))
      (Q := fun _ _ => False) (fun a' r left t₁ o t₂ hr hI hreach => ⟨hI.1.reach hr hreach, hI.2⟩)
      (fun a' r left t₀ t₁ f left' stop t₂ hr hI hreach hact => by
        obtain ⟨hsteps, rfl⟩ := hI
        obtain ⟨_, t₃, hset, hpure⟩ := bind_eq_ok.mp hact
        cases hset
        cases hpure
        have hf := reachPage_some hreach
        have hfirst := Chunks.first_le pgSize a' r
        have hoff : a' - pgRoundDown a' = a' % pgSize := by
          unfold pgRoundDown
          simp only [pgSize]
          omega
        have hplace := hsteps.place
        have hleft := hsteps.left
        refine Or.inl ⟨rfl, hsteps.next hpt hf (.single ?_), ?_⟩
        · rw [hoff]
          subst hplace
          refine .store rfl (by omega) ?_ hf
          have hmod := Nat.mod_lt (a + (n - r)) (by decide : 0 < pgSize)
          unfold Chunks.first
          omega
        · rw [List.drop_drop]
          congr 1
          omega)
      ⟨.start fs pt true a n src t, by rw [Nat.sub_self]; rfl⟩ hrun with ⟨he, a', h, -⟩ | ⟨he, a',
        r, -, h, -⟩ | ⟨-, hQ⟩
  · exact Or.inl ⟨he, a', h⟩
  · exact Or.inr ⟨he, a', r, h⟩
  · exact hQ.elim

/-- **The loop of `copyin`** takes page faults only, and has read as many bytes as it has got
through. -/
theorem getLoop_steps (hpt : CopyTable t pt) {a : Nat}
    (hrun : Chunks.loop pgSize (reachPage fs pt false) getBytes a n [] t = .ok ((e, dst), t')) :
    ∃ a' r, CopySteps fs pt false a n [] t a' r t' ∧ dst.length = n - r ∧
      (e = .through ∧ r = 0 ∨ e = .refused ∧ 0 < r) := by
  rcases Chunks.loop_keeps (reachPage fs pt false) getBytes (P := pgSize) (by decide)
      (I := fun a' r dst t₁ => CopySteps fs pt false a n [] t a' r t₁ ∧ dst.length = n - r)
      (Q := fun _ _ => False) (fun a' r dst t₁ o t₂ hr hI hreach => ⟨hI.1.reach hr hreach, hI.2⟩)
      (fun a' r dst t₀ t₁ f dst' stop t₂ hr hI hreach hact => by
        obtain ⟨hsteps, hlen⟩ := hI
        cases hact
        have hleft := hsteps.left
        have hfirst := Chunks.first_le pgSize a' r
        refine Or.inl ⟨rfl, hsteps.next hpt (reachPage_some hreach) .refl, ?_⟩
        rw [List.length_append, Mem.bytes, List.length_map, List.length_range]
        omega)
      ⟨.start fs pt false a n [] t, by rw [Nat.sub_self]; rfl⟩ hrun with
    ⟨he, a', h, hlen⟩ | ⟨he, a', r, hr, h, hlen⟩ | ⟨-, hQ⟩
  · exact ⟨a', 0, h, hlen, Or.inl ⟨he, rfl⟩⟩
  · exact ⟨a', r, h, hlen, Or.inr ⟨he, hr⟩⟩
  · exact hQ.elim

theorem not_mem_takeWhile (l : List UInt8) : 0 ∉ l.takeWhile (· ≠ 0) := fun hc => by
  have hz := List.mem_takeWhile_imp hc
  simp at hz

theorem length_takeWhile_lt {l : List UInt8} (h : 0 ∈ l) :
    (l.takeWhile (· ≠ 0)).length < l.length := by
  refine lt_of_le_of_ne (List.takeWhile_sublist _).length_le fun hc => not_mem_takeWhile l ?_
  rw [(List.takeWhile_sublist _).eq_of_length hc]
  exact h

/-- **The loop of `copyinstr`** takes page faults only, and stops at the first NUL. -/
theorem stringLoop_steps (hpt : CopyTable t pt) {a : Nat}
    (hrun : Chunks.loop pgSize (reachPage fs pt false) getString a n [] t = .ok ((e, dst), t')) :
    ∃ a' r, CopySteps fs pt false a n [] t a' r t' ∧ dst.length ≤ n - r ∧
      (e = .stopped ∧ (∃ s, dst = s ++ [0] ∧ 0 ∉ s) ∨
        dst.length = n - r ∧ 0 ∉ dst ∧ (e = .through ∧ r = 0 ∨ e = .refused ∧ 0 < r)) := by
  rcases Chunks.loop_keeps (reachPage fs pt false) getString (P := pgSize) (by decide)
      (I := fun a' r dst t₁ => CopySteps fs pt false a n [] t a' r t₁ ∧ dst.length = n - r ∧ 0 ∉
       dst)
      (Q := fun dst t₁ => ∃ a' r, CopySteps fs pt false a n [] t a' r t₁ ∧ dst.length ≤ n - r ∧
        ∃ s, dst = s ++ [0] ∧ 0 ∉ s)
      (fun a' r dst t₁ o t₂ hr hI hreach => ⟨hI.1.reach hr hreach, hI.2⟩)
      (fun a' r dst t₀ t₁ f dst' stop t₂ hr hI hreach hact => by
        obtain ⟨hsteps, hlen, hno⟩ := hI
        have hleft := hsteps.left
        have hfirst := Chunks.first_le pgSize a' r
        have hnext := hsteps.next hpt (reachPage_some hreach) .refl
        have hbytes : (t₁.mem.bytes f (a' - pgRoundDown a') (Chunks.first pgSize a' r)).length =
            Chunks.first pgSize a' r := by
          rw [Mem.bytes, List.length_map, List.length_range]
        rw [getString, bind_of_ok (get_apply _)] at hact
        obtain ⟨hval, rfl⟩ := pure_eq_ok.mp hact
        by_cases hnul : 0 ∈ t₁.mem.bytes f (a' - pgRoundDown a') (Chunks.first pgSize a' r)
        · rw [if_pos hnul] at hval
          obtain ⟨rfl, rfl⟩ := Prod.mk.inj hval
          have hlt := length_takeWhile_lt hnul
          refine Or.inr ⟨rfl, _, _, hnext, ?_, _, rfl, ?_⟩
          · rw [List.length_append, List.length_append, List.length_singleton]
            omega
          · rw [List.mem_append, not_or]
            exact ⟨hno, not_mem_takeWhile _⟩
        · rw [if_neg hnul] at hval
          obtain ⟨rfl, rfl⟩ := Prod.mk.inj hval
          refine Or.inl ⟨rfl, hnext, ?_, ?_⟩
          · rw [List.length_append]
            omega
          · rw [List.mem_append, not_or]
            exact ⟨hno, hnul⟩)
      ⟨.start fs pt false a n [] t, by rw [Nat.sub_self]; rfl, List.not_mem_nil⟩ hrun with
    ⟨he, a', h, hlen, hno⟩ | ⟨he, a', r, hr, h, hlen, hno⟩ | ⟨he, a', r, h, hlen, hs⟩
  · exact ⟨a', 0, h, hlen.le, Or.inr ⟨hlen, hno, Or.inl ⟨he, rfl⟩⟩⟩
  · exact ⟨a', r, h, hlen.le, Or.inr ⟨hlen, hno, Or.inr ⟨he, hr⟩⟩⟩
  · exact ⟨a', r, h, hlen, Or.inl ⟨he, hs⟩⟩

/-! ## A prefix of a copy -/

/-- How a loop that writes ends, and what it leaves, depends on the bytes that it writes only. -/
theorem putLoop_take (fs : Fs) (pt : Frame) (a n : Nat) : ∀ src : List UInt8,
    (do
      let x ← Chunks.loop pgSize (reachPage fs pt true) putBytes a n (src.take n)
      pure x.1) = (do
      let x ← Chunks.loop pgSize (reachPage fs pt true) putBytes a n src
      pure x.1) := by
  induction a, n using Chunks.induct (P := pgSize) (by decide) with
  | zero a => exact fun src => rfl
  | step a n hpos ih =>
    intro src
    have hfirst := Chunks.first_le pgSize a n
    rw [Chunks.loop_of_pos (by decide) hpos, Chunks.loop_of_pos (by decide) hpos, Chunks.round,
      Chunks.round, bind_assoc, bind_assoc]
    congr 1
    funext o
    cases o with
    | none => rfl
    | some f =>
      dsimp only
      rw [putBytes, putBytes, List.take_take, Nat.min_eq_left hfirst, List.drop_take]
      rw [bind_assoc, bind_assoc, bind_assoc, bind_assoc]
      congr 1
      funext u
      rw [pure_bind, pure_bind, if_neg Bool.false_ne_true, if_neg Bool.false_ne_true]
      exact ih _

theorem map_fst_eq_ok {σ ε α β γ : Type} {x : Halting σ ε (α × β)} {g : α → γ} {s s' : σ} {c : γ}
    {b : β} : (do let y ← x; pure (g y.1, y.2) : Halting σ ε (γ × β)) s = .ok ((c, b), s') ↔
      ∃ a, x s = .ok ((a, b), s') ∧ g a = c := by
  rw [bind_eq_ok]
  constructor
  · rintro ⟨⟨a, b'⟩, s₁, hx, hr⟩
    obtain ⟨hval, rfl⟩ := pure_eq_ok.mp hr
    obtain ⟨hc, rfl⟩ := Prod.mk.inj hval
    exact ⟨a, hx, hc⟩
  · rintro ⟨a, hx, rfl⟩
    exact ⟨(a, b), s', hx, rfl⟩

theorem map_pure_eq_ok {σ ε α β γ : Type} {x : Halting σ ε (α × β)} {g : α → γ} {s s' : σ} {c : γ} :
    (do let y ← x; pure (g y.1) : Halting σ ε γ) s = .ok (c, s') ↔ ∃ a b, x s = .ok ((a, b), s') ∧
    g a = c := by
  rw [bind_eq_ok]
  constructor
  · rintro ⟨⟨a, b⟩, s₁, hx, hr⟩
    obtain ⟨hval, rfl⟩ := pure_eq_ok.mp hr
    exact ⟨a, b, hx, hval⟩
  · rintro ⟨a, b, hx, rfl⟩
    exact ⟨(a, b), s', hx, rfl⟩

/-- The runs of `copyin`. -/
theorem copyin_eq_ok {a len : Nat} : copyin fs pt a len t = .ok ((r, dst), t') ↔
    ∃ e, Chunks.loop pgSize (reachPage fs pt false) getBytes a len [] t = .ok ((e, dst), t') ∧
    copyResult e = r := by
  rw [copyin_eq]
  exact map_fst_eq_ok

/-- The runs of `copyinstr`. -/
theorem copyinstr_eq_ok {a max : Nat} : copyinstr fs pt a max t = .ok ((r, dst), t') ↔
    ∃ e, Chunks.loop pgSize (reachPage fs pt false) getString a max [] t = .ok ((e, dst), t') ∧
      stringResult e = r := by
  rw [copyinstr_eq]
  exact map_fst_eq_ok

/-- The runs of `copyout` on a prefix of the source. -/
theorem copyout_take_eq_ok {a : Nat} (hn : n ≤ src.length) :
    copyout fs pt a (src.take n) t = .ok (r, t') ↔
    ∃ e rest, Chunks.loop pgSize (reachPage fs pt true) putBytes a n src t = .ok ((e, rest), t') ∧
      copyResult e = r := by
  have hlen : (src.take n).length = n := by
    rw [List.length_take]
    omega
  have htake : copyout fs pt a (src.take n) = (do
      let x ← Chunks.loop pgSize (reachPage fs pt true) putBytes a n src
      pure (copyResult x.1)) := by
    have hmap := congrArg (fun y => y >>= fun e => pure (copyResult e)) (putLoop_take fs pt a n src)
    simp only [bind_assoc, pure_bind] at hmap
    rw [copyout_eq, hlen]
    exact hmap
  rw [htake]
  exact map_pure_eq_ok

/-- The runs of `copyout`. -/
theorem copyout_eq_ok {a : Nat} : copyout fs pt a src t = .ok (r, t') ↔
    ∃ e rest, Chunks.loop pgSize (reachPage fs pt true) putBytes a src.length src t =
    .ok ((e, rest), t') ∧
      copyResult e = r := by
  rw [copyout_eq]
  exact map_pure_eq_ok

theorem copyResult_eq_zero : copyResult e = 0 ↔ e = .through := by
  cases e <;> decide

/-- **`copyout` fails** exactly when, a prefix of the range copied, the next page is refused. -/
theorem copyout_fails_iff (hpt : CopyTable t pt) {a : Nat} : copyout fs pt a src t = .ok (-1, t') ↔
    ∃ n t₁, n < src.length ∧ (n = 0 ∨ (a + n) % pgSize = 0) ∧
    copyout fs pt a (src.take n) t = .ok (0, t₁) ∧
      Refused fs pt true (a + n) t₁ t' := by
  constructor
  · intro hrun
    obtain ⟨e, rest, hloop, hr⟩ := copyout_eq_ok.mp hrun
    rcases putLoop_steps hpt hloop with ⟨rfl, -⟩ | ⟨rfl, -⟩
    · cases hr
    obtain ⟨n, t₁, hn, hal, hpre, hnone⟩ := (Chunks.loop_refused (by decide)).mp hloop
    refine ⟨n, t₁, hn, hal, (copyout_take_eq_ok hn.le).mpr ⟨_, _, hpre, rfl⟩, ?_⟩
    rcases putLoop_steps hpt hpre with ⟨-, a', hsteps⟩ | ⟨hc, -⟩
    · exact (reachPage_none (hpt.steps hsteps.steps)).mp hnone
    · cases hc
  · rintro ⟨n, t₁, hn, hal, hpre, hrefused⟩
    obtain ⟨e, rest, hloop, hr⟩ := (copyout_take_eq_ok hn.le).mp hpre
    obtain rfl := copyResult_eq_zero.mp hr
    rcases putLoop_steps hpt hloop with ⟨-, a', hsteps⟩ | ⟨hc, -⟩
    · exact copyout_eq_ok.mpr ⟨.refused, rest, (Chunks.loop_refused (by decide)).mpr
        ⟨n, t₁, hn, hal, hloop, (reachPage_none (hpt.steps hsteps.steps)).mpr hrefused⟩, rfl⟩
    · cases hc

/-- **`copyin` fails** exactly when, a prefix of the range copied, the next page is refused. -/
theorem copyin_fails_iff (hpt : CopyTable t pt) {a len : Nat} :
    copyin fs pt a len t = .ok ((-1, dst), t') ↔
    ∃ n t₁, n < len ∧ (n = 0 ∨ (a + n) % pgSize = 0) ∧ copyin fs pt a n t = .ok ((0, dst), t₁) ∧
      Refused fs pt false (a + n) t₁ t' := by
  constructor
  · intro hrun
    obtain ⟨e, hloop, hr⟩ := copyin_eq_ok.mp hrun
    obtain ⟨a', r, -, -, ⟨rfl, -⟩ | ⟨rfl, -⟩⟩ := getLoop_steps hpt hloop
    · cases hr
    obtain ⟨n, t₁, hn, hal, hpre, hnone⟩ := (Chunks.loop_refused (by decide)).mp hloop
    obtain ⟨a', r, hsteps, -⟩ := getLoop_steps hpt hpre
    exact ⟨n, t₁, hn, hal, copyin_eq_ok.mpr ⟨_, hpre, rfl⟩,
      (reachPage_none (hpt.steps hsteps.steps)).mp hnone⟩
  · rintro ⟨n, t₁, hn, hal, hpre, hrefused⟩
    obtain ⟨e, hloop, hr⟩ := copyin_eq_ok.mp hpre
    obtain rfl := copyResult_eq_zero.mp hr
    obtain ⟨a', r, hsteps, -⟩ := getLoop_steps hpt hloop
    exact copyin_eq_ok.mpr ⟨.refused, (Chunks.loop_refused (by decide)).mpr
      ⟨n, t₁, hn, hal, hloop, (reachPage_none (hpt.steps hsteps.steps)).mpr hrefused⟩, rfl⟩

/-- **`copyinstr` fails** when there is no NUL in the range, or, a prefix without a NUL copied, the
next page is refused. -/
theorem copyinstr_fails (hpt : CopyTable t pt) {a max : Nat}
    (hrun : copyinstr fs pt a max t = .ok ((-1, dst), t')) :
    0 ∉ dst ∧ (dst.length = max ∨ ∃ n t₁, n < max ∧ (n = 0 ∨ (a + n) % pgSize = 0) ∧
      copyinstr fs pt a n t = .ok ((-1, dst), t₁) ∧ dst.length = n ∧
      Refused fs pt false (a + n) t₁ t') := by
  obtain ⟨e, hloop, hr⟩ := copyinstr_eq_ok.mp hrun
  obtain ⟨a', r, -, -, ⟨rfl, -⟩ | ⟨hlen, hno, ⟨-, rfl⟩ | ⟨rfl, -⟩⟩⟩ := stringLoop_steps hpt hloop
  · cases hr
  · exact ⟨hno, Or.inl hlen⟩
  refine ⟨hno, Or.inr ?_⟩
  obtain ⟨n, t₁, hn, hal, hpre, hnone⟩ := (Chunks.loop_refused (by decide)).mp hloop
  obtain ⟨a', r, hsteps, -, ⟨hc, -⟩ | ⟨hlen, -, ⟨-, rfl⟩ | ⟨hc, -⟩⟩⟩ := stringLoop_steps hpt hpre
  · cases hc
  · exact ⟨n, t₁, hn, hal, copyinstr_eq_ok.mpr ⟨_, hpre, rfl⟩, hlen,
      (reachPage_none (hpt.steps hsteps.steps)).mp hnone⟩
  · cases hc

theorem copyinstr_refused (hpt : CopyTable t pt) {a max : Nat} (hn : n < max)
    (hal : n = 0 ∨ (a + n) % pgSize = 0)
    (hpre : copyinstr fs pt a n t = .ok ((-1, dst), t₁)) (hlen : dst.length = n)
    (hrefused : Refused fs pt false (a + n) t₁ t') :
    copyinstr fs pt a max t = .ok ((-1, dst), t') := by
  obtain ⟨e, hloop, hr⟩ := copyinstr_eq_ok.mp hpre
  obtain ⟨a', r, hsteps, -, ⟨rfl, -⟩ | ⟨hlen', -, ⟨rfl, -⟩ | ⟨-, hpos⟩⟩⟩ :=
    stringLoop_steps hpt hloop
  · cases hr
  · exact copyinstr_eq_ok.mpr ⟨.refused, (Chunks.loop_refused (by decide)).mpr
      ⟨n, t₁, hn, hal, hloop, (reachPage_none (hpt.steps hsteps.steps)).mpr hrefused⟩, rfl⟩
  · have hleft := hsteps.left
    omega

/-! ## Nothing but user pages is accessed -/

/-- Halt unless the `n` bytes from `a` on lie in one page and `f` is its frame, and the user may
access it. -/
def requireUser (pt : Frame) (w : Bool) (f : Frame) (a n : Nat) : TM Unit := do
  let t ← get
  if t.mem.frameFor pt w a = some f ∧ a % pgSize + n ≤ pgSize then pure ()
  else halt (.panic .kerneltrap)

/-- An action on a page, after the check. -/
def guarded (pt : Frame) (w : Bool) (act : Frame → Nat → Nat → List UInt8 → TM (List UInt8 × Bool))
    (f : Frame) (a n : Nat) (acc : List UInt8) : TM (List UInt8 × Bool) := do
  requireUser pt w f a n
  act f a n acc

/-- `copyout`, with the check before every `memmove`. -/
def copyoutGuarded (fs : Fs) (pt : Frame) (dst : Nat) (src : List UInt8) : TM Int := do
  let x ← Chunks.loop pgSize (reachPage fs pt true) (guarded pt true putBytes) dst src.length src
  pure (copyResult x.1)

/-- `copyin`, with the check before every `memmove`. -/
def copyinGuarded (fs : Fs) (pt : Frame) (src len : Nat) : TM (Int × List UInt8) := do
  let x ← Chunks.loop pgSize (reachPage fs pt false) (guarded pt false getBytes) src len []
  pure (copyResult x.1, x.2)

/-- `copyinstr`, with the check before the bytes of a page are read. -/
def copyinstrGuarded (fs : Fs) (pt : Frame) (src max : Nat) : TM (Int × List UInt8) := do
  let x ← Chunks.loop pgSize (reachPage fs pt false) (guarded pt false getString) src max []
  pure (stringResult x.1, x.2)

/-- **The checks pass.** -/
theorem loop_guarded (fs : Fs) (pt : Frame) (w : Bool)
    (act : Frame → Nat → Nat → List UInt8 → TM (List UInt8 × Bool))
    (a n : Nat) (acc : List UInt8) :
    Chunks.loop pgSize (reachPage fs pt w) (guarded pt w act) a n acc =
      Chunks.loop pgSize (reachPage fs pt w) act a n acc := by
  funext t
  refine Chunks.loop_congr (by decide) fun a n acc t₀ f t₁ hreach => ?_
  have hin : a % pgSize + Chunks.first pgSize a n ≤ pgSize := by
    have hmod := Nat.mod_lt a (by decide : 0 < pgSize)
    unfold Chunks.first
    omega
  have hreq : requireUser pt w f a (Chunks.first pgSize a n) t₁ = .ok ((), t₁) := by
    unfold requireUser
    rw [bind_of_ok (get_apply _), if_pos ⟨reachPage_some hreach, hin⟩]
    rfl
  rw [guarded, bind_of_ok hreq]

/-- **The page of `a` is forbidden** to the user: it is at `MAXVA` or above, or mapped without
`PTE_U`. -/
def Forbidden (m : Mem) (pt : Frame) (a : Nat) : Prop :=
  maxVa ≤ a ∨ ∃ e, m.lookup pt a = some e ∧ e.perm.u = false

theorem Forbidden.high (hpt : CopyTable t pt) (h : Forbidden t.mem pt a) : trapframeVa ≤ a := by
  rcases h with h | ⟨e, he, hu⟩
  · exact le_trans (by decide) h
  · exact hpt.high he hu

/-! ## User copies -/

/-- **User copies respect exactly the requested range.** -/
structure CopiesExactly (fs : Fs) (pt : Frame) (t : Task) : Prop where
  /-- `copyout` to resident pages returns 0 and changes exactly the bytes of the range -/
  out_resident : ∀ dst src, t.mem.InPlace pt true dst src.length →
    ∃ m', copyout fs pt dst src t = .ok (0, ⟨m', t.p⟩) ∧ Written t.mem pt dst src m' ∧
      ∀ va, va < maxVa → m'.userByte pt va =
        if dst ≤ va ∧ va < dst + src.length then src.getD (va - dst) 0 else t.mem.userByte pt va
  /-- `copyin` of resident pages returns exactly the bytes of the range and changes nothing -/
  in_resident : ∀ src len, t.mem.InPlace pt false src len →
    copyin fs pt src len t = .ok ((0, t.mem.userBytes pt src len), t)
  /-- `copyinstr` returns the bytes up to the first NUL, when the pages up to it are resident -/
  str_resident : ∀ src max n, n < max → t.mem.InPlace pt false src (n + 1) →
    (∀ k < n, t.mem.userByte pt (src + k) ≠ 0) → t.mem.userByte pt (src + n) = 0 →
    copyinstr fs pt src max t = .ok ((0, t.mem.userBytes pt src (n + 1)), t)
  /-- `copyinstr` fails when there is no NUL in the range -/
  str_noNul : ∀ src max, t.mem.InPlace pt false src max →
    (∀ k < max, t.mem.userByte pt (src + k) ≠ 0) →
    copyinstr fs pt src max t = .ok ((-1, t.mem.userBytes pt src max), t)
  /-- `copyout` returns -1 when the next page is refused, and otherwise 0 -/
  out_fails : ∀ dst src t', copyout fs pt dst src t = .ok (-1, t') ↔
    ∃ n t₁, n < src.length ∧ (n = 0 ∨ (dst + n) % pgSize = 0) ∧
    copyout fs pt dst (src.take n) t = .ok (0, t₁) ∧
      Refused fs pt true (dst + n) t₁ t'
  /-- what `copyout` does to the memory: page faults, and stores of the bytes at their place
  in pages of the user -/
  out_steps : ∀ dst src r t', copyout fs pt dst src t = .ok (r, t') →
    (r = 0 ∨ r = -1) ∧ Relation.ReflTransGen (CopyStep fs pt true dst src.length src) t t'
  /-- `copyin` returns -1 when the next page is refused, and otherwise 0 -/
  in_fails : ∀ src len dst t', copyin fs pt src len t = .ok ((-1, dst), t') ↔
    ∃ n t₁, n < len ∧ (n = 0 ∨ (src + n) % pgSize = 0) ∧ copyin fs pt src n t = .ok ((0, dst), t₁) ∧
      Refused fs pt false (src + n) t₁ t'
  /-- what `copyin` does to the memory: page faults -/
  in_steps : ∀ src len r dst t', copyin fs pt src len t = .ok ((r, dst), t') →
    (r = 0 ∧ dst.length = len ∨ r = -1 ∧ dst.length < len) ∧
      Relation.ReflTransGen (CopyStep fs pt false src len []) t t'
  /-- `copyinstr` returns -1 when the next page is refused and there is no NUL before it -/
  str_refused : ∀ src max n dst t₁ t', n < max → (n = 0 ∨ (src + n) % pgSize = 0) →
    copyinstr fs pt src n t = .ok ((-1, dst), t₁) → dst.length = n →
    Refused fs pt false (src + n) t₁ t' → copyinstr fs pt src max t = .ok ((-1, dst), t')
  /-- it returns -1 only then, or when there is no NUL in the range -/
  str_fails : ∀ src max dst t', copyinstr fs pt src max t = .ok ((-1, dst), t') →
    0 ∉ dst ∧ (dst.length = max ∨ ∃ n t₁, n < max ∧ (n = 0 ∨ (src + n) % pgSize = 0) ∧
      copyinstr fs pt src n t = .ok ((-1, dst), t₁) ∧ dst.length = n ∧
      Refused fs pt false (src + n) t₁ t')
  /-- what `copyinstr` does: page faults, and `max` bytes at most, of which only the last is a
  NUL -/
  str_steps : ∀ src max r dst t', copyinstr fs pt src max t = .ok ((r, dst), t') →
    (r = 0 ∧ (∃ s, dst = s ++ [0] ∧ 0 ∉ s) ∨ r = -1) ∧ dst.length ≤ max ∧
      Relation.ReflTransGen (CopyStep fs pt false src max []) t t'
  /-- a forbidden page in the range makes `copyout` return -1 -/
  out_forbidden : ∀ dst src k r t', k < src.length → Forbidden t.mem pt (dst + k) →
    copyout fs pt dst src t = .ok (r, t') → r = -1
  /-- a forbidden page in the range makes `copyin` return -1, with bytes before that page only -/
  in_forbidden : ∀ src len k r dst t', k < len → Forbidden t.mem pt (src + k) →
    copyin fs pt src len t = .ok ((r, dst), t') → r = -1 ∧ dst.length ≤ k
  /-- `copyinstr` returns bytes before a forbidden page only -/
  str_forbidden : ∀ src max k r dst t', Forbidden t.mem pt (src + k) →
    copyinstr fs pt src max t = .ok ((r, dst), t') → dst.length ≤ k
  /-- no memory of a page without `PTE_U` is read or written -/
  guard : (∀ dst src, copyoutGuarded fs pt dst src t = copyout fs pt dst src t) ∧
    (∀ src len, copyinGuarded fs pt src len t = copyin fs pt src len t) ∧
    ∀ src max, copyinstrGuarded fs pt src max t = copyinstr fs pt src max t

/-- **The user copies respect exactly the requested range**, for every page table, address and
length. -/
theorem user_copies (fs : Fs) (h : CopyTable t pt) : CopiesExactly fs pt t where
  out_resident dst src hin := by
    obtain ⟨tf, own, hsp⟩ := h.user
    obtain ⟨m', hrun, hwr⟩ := copyout_resident fs h hin
    exact ⟨m', hrun, hwr, fun va hva => hwr.userByte hsp hin hva⟩
  in_resident src len hin := copyin_resident fs hin
  str_resident src max n hn hin hne h0 := by
    rw [copyinstr_resident fs hn.le (by rw [Nat.min_eq_left hn]; exact hin) hne fun _ => h0,
      if_pos hn]
  str_noNul src max hin hne := by
    rw [copyinstr_resident fs le_rfl (by rw [Nat.min_eq_right (Nat.le_succ max)]; exact hin) hne
      fun hc => absurd hc (lt_irrefl max), if_neg (lt_irrefl max)]
  out_fails dst src t' := copyout_fails_iff h
  out_steps dst src r t' hrun := by
    obtain ⟨e, rest, hloop, rfl⟩ := copyout_eq_ok.mp hrun
    rcases putLoop_steps h hloop with ⟨rfl, a', hsteps⟩ | ⟨rfl, a', r, hsteps⟩
    · exact ⟨Or.inl rfl, hsteps.steps⟩
    · exact ⟨Or.inr rfl, hsteps.steps⟩
  in_fails src len dst t' := copyin_fails_iff h
  in_steps src len r dst t' hrun := by
    obtain ⟨e, hloop, rfl⟩ := copyin_eq_ok.mp hrun
    obtain ⟨a', r, hsteps, hlen, ⟨rfl, rfl⟩ | ⟨rfl, hr⟩⟩ := getLoop_steps h hloop
    · exact ⟨Or.inl ⟨rfl, hlen⟩, hsteps.steps⟩
    · have hleft := hsteps.left
      exact ⟨Or.inr ⟨rfl, by omega⟩, hsteps.steps⟩
  str_refused src max n dst t₁ t' hn hal hpre hlen hrefused :=
    copyinstr_refused h hn hal hpre hlen hrefused
  str_fails src max dst t' hrun := copyinstr_fails h hrun
  str_steps src max r dst t' hrun := by
    obtain ⟨e, hloop, rfl⟩ := copyinstr_eq_ok.mp hrun
    obtain ⟨a', r, hsteps, hlen, ⟨rfl, hs⟩ | ⟨-, -, ⟨rfl, -⟩ | ⟨rfl, -⟩⟩⟩ :=
      stringLoop_steps h hloop
    · exact ⟨Or.inl ⟨rfl, hs⟩, hlen.trans (Nat.sub_le _ _), hsteps.steps⟩
    · exact ⟨Or.inr rfl, hlen.trans (Nat.sub_le _ _), hsteps.steps⟩
    · exact ⟨Or.inr rfl, hlen.trans (Nat.sub_le _ _), hsteps.steps⟩
  -- A byte outside the user's pages is never reached, so the loop has failed before it.
  out_forbidden dst src k r t' hk hbad hrun := by
    obtain ⟨e, rest, hloop, rfl⟩ := copyout_eq_ok.mp hrun
    rcases putLoop_steps h hloop with ⟨rfl, a', hsteps⟩ | ⟨rfl, -⟩
    · exact absurd (hbad.high h) (Nat.not_le.mpr (hsteps.below k hk))
    · rfl
  in_forbidden src len k r dst t' hk hbad hrun := by
    obtain ⟨e, hloop, rfl⟩ := copyin_eq_ok.mp hrun
    obtain ⟨a', r, hsteps, hlen, hend⟩ := getLoop_steps h hloop
    have hle : dst.length ≤ k := by
      by_contra hlt
      exact absurd (hbad.high h) (Nat.not_le.mpr (hsteps.below k (by omega)))
    rcases hend with ⟨rfl, rfl⟩ | ⟨rfl, -⟩
    · omega
    · exact ⟨rfl, hle⟩
  str_forbidden src max k r dst t' hbad hrun := by
    obtain ⟨e, hloop, rfl⟩ := copyinstr_eq_ok.mp hrun
    obtain ⟨a', r, hsteps, hlen, -⟩ := stringLoop_steps h hloop
    by_contra hlt
    exact absurd (hbad.high h) (Nat.not_le.mpr (hsteps.below k (by omega)))
  guard := by
    refine ⟨fun dst src => ?_, fun src len => ?_, fun src max => ?_⟩
    · rw [copyoutGuarded, loop_guarded, ← copyout_eq]
    · rw [copyinGuarded, loop_guarded, ← copyin_eq]
    · rw [copyinstrGuarded, loop_guarded, ← copyinstr_eq]

/-- A process that has just executed a program: its stack is mapped, its text and data are not
loaded yet. -/
theorem user_copies_exec : ∃ pt, (afterExec.procs 0).pagetable = some pt ∧
    CopiesExactly afterExec.fs pt (afterExec.task 0) := by
  obtain ⟨⟨own, hinv⟩, -⟩ := tablesOk_reachable afterExec_reachable.small
  obtain ⟨root, tf, o, -, -, -, htask⟩ := hinv.runnable (i := 0) (by decide +kernel)
  exact ⟨root, htask.pagetable, user_copies afterExec.fs (.mine htask)⟩

end Xv6
