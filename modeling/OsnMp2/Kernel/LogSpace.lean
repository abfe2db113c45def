import Mathlib.Algebra.GroupWithZero.Nat
import Mathlib.Data.Finset.Card
import OsnMp2.Kernel.LogAtomic
import OsnMp2.Lib.Runs

/-!
# The space in the log

Many processes use the log at once: each begins an operation, reads, changes, logs and releases
blocks, and ends it; the last one to end commits. The functions of the log run under its lock, one
at a time, except for the commit, which makes its steps between those of the others. `begin_op`
admits an operation when there is room for all that it and the outstanding ones may log.

The reservation is enough for what is new in the log. But `log_write` tests for a full log before it
looks for the block: an operation that logs a block once more, when the log is exactly full, panics.

## Main definitions

* `Phase`: how far a commit has come
* `Sys`, `Step`: the log and the operations that use it, and what each may do next
* `SpaceOk`: the log has space, and the operations do not panic
* `Spare`: no operation logs a block once more while the log is full

## Main results

* `space_ok`: there is space along every run that meets the condition, and a step that does not
  panics
* `space_full`: three operations fill the log, and one of them logs a block again
-/

namespace Xv6.Log

open BufferCache Crashing

variable {rs : BlockNo → Nat} {lh : LogHeader} {o : Int} {cm : Bool} {s s' : LogState} {b : BlockNo}
  {v : Block} {ks : List BlockNo}

/-! ## The steps of a commit -/

/-- Where a process in `commit` is. -/
inductive Phase
  | check
  | writeLog (tail : Nat)
  | writeHead
  | install (tail : Nat)
  | clear
  | erase
  | finish
deriving DecidableEq

/-- The next step of a commit, and where it leads; the last one is the end of `end_op`. -/
def Phase.step : Phase → LogM (Option Phase)
  | .check => do
    if 0 < (← get).lh.n then return some (.writeLog 0) else return some .finish
  | .writeLog tail => do
    let lh := (← get).lh
    if (tail : Int) < lh.n then
      writeLogBody tail (lh.block tail)
      return some (.writeLog (tail + 1))
    else return some .writeHead
  | .writeHead => do
    Log.writeHead
    return some (.install 0)
  | .install tail => do
    let lh := (← get).lh
    if (tail : Int) < lh.n then
      installBody false tail (lh.block tail)
      return some (.install (tail + 1))
    else return some .clear
  | .clear => do
    clearHead
    return some .erase
  | .erase => do
    Log.writeHead
    return some .finish
  | .finish => do
    endOpFinish
    return none

/-! ## The system -/

/-- An operation between its `begin_op` and its `end_op`, with the blocks that it has logged. -/
structure Op where
  pid : Nat
  logged : Finset BlockNo

/-- Where the processes are: the operations that are outstanding, the process that commits, and the
buffers that processes have got with `bread` and not released. -/
structure Control where
  ops : List Op := []
  committer : Option (Nat × Phase) := none
  users : List (Nat × BlockNo) := []

/-- The log, the processes that use it, and the panic that has stopped the machine. -/
structure Sys where
  log : LogState
  ctl : Control := {}
  panicked : Option Panic := none

/-- What a process may do. -/
inductive Event
  | beginOp (p : Nat)
  | bread (p : Nat) (b : BlockNo)
  | setData (p : Nat) (b : BlockNo) (v : Block)
  | logWrite (p : Nat) (b : BlockNo)
  | brelse (p : Nat) (b : BlockNo)
  | endOp (p : Nat)
  | commit

/-- The operation of a process logs a block. -/
def logged (p : Nat) (b : BlockNo) (ops : List Op) : List Op :=
  ops.map fun op => if op.pid = p then { op with logged := insert b op.logged } else op

/-- **What the callers keep to**: operations of a process do not overlap, only a buffer that
the process has got is changed, logged or released, and an operation logs at most
`MAXOPBLOCKS` blocks. -/
def Control.may (c : Control) : Event → Bool
  | .beginOp p => (c.ops.all fun op => op.pid ≠ p) && c.committer.all fun q => q.1 ≠ p
  -- Blocks are read outside of operations, too.
  | .bread _ _ => true
  | .setData p b _ | .brelse p b => (p, b) ∈ c.users
  | .logWrite p b => (p, b) ∈ c.users &&
      c.ops.any fun op => op.pid = p && (insert b op.logged).card ≤ maxOpBlocks
  | .endOp p => c.ops.any fun op => op.pid = p
  | .commit => c.committer.isSome

/-- What is run, and where the processes are afterwards. A process that `begin_op` puts to sleep has
not begun: it tests again after a wakeup or when it is killed. -/
def Control.program (c : Control) : Event → LogM Control
  | .beginOp p => do
    -- Asleep: nothing has changed.
    if ← Log.beginOp then return { c with ops := ⟨p, ∅⟩ :: c.ops } else return c
  | .bread p b => do
    let _ ← Log.bread b
    return { c with users := (p, b) :: c.users }
  | .setData _ b v => do
    Log.setData b v
    return c
  | .logWrite p b => do
    Log.logWrite b
    return { c with ops := logged p b c.ops }
  | .brelse p b => do
    Log.brelse b
    return { c with users := c.users.erase (p, b) }
  | .endOp p => do
    let last ← endOpStart
    -- The last one out commits, without holding the lock.
    return { c with ops := c.ops.filter fun op => op.pid ≠ p
                    committer := if last then some (p, .check) else c.committer }
  | .commit =>
    match c.committer with
    | none => pure c
    | some (p, phase) => do
      -- One block at a time, so that readers run in between.
      let next ← phase.step
      return { c with committer := next.map fun ph => (p, ph) }

/-- **A step**: one of the processes does what it may; a panic stops the machine. -/
inductive Step : Sys → Event → Sys → Prop
  | returns {s : Sys} {e : Event} {c : Control} {l : LogState} (running : s.panicked = none)
      (may : s.ctl.may e = true) (run : (s.ctl.program e).exec s.log = (.ok c, l)) :
      Step s e { log := l, ctl := c }
  | panics {s : Sys} {e : Event} {err : Panic} {l : LogState} (running : s.panicked = none)
      (may : s.ctl.may e = true) (run : (s.ctl.program e).exec s.log = (.error err, l)) :
      Step s e { log := l, ctl := s.ctl, panicked := some err }

/-- The log is empty and nobody uses it, as after `initlog`. -/
structure Start (s : Sys) : Prop where
  running : s.panicked = none
  ctl : s.ctl = {}
  distinct : s.log.bcache.keys.Nodup
  refs : ∀ b, s.log.bcache.refs b = 0
  n : s.log.lh.n = 0
  outstanding : s.log.outstanding = 0
  committing : s.log.committing = false

/-! ## Space for all -/

/-- The blocks that the header lists. -/
def LogHeader.blocks (lh : LogHeader) : List BlockNo := (List.range lh.n.toNat).map lh.block

/-- The listed blocks that are pinned: all of them, until a commit that installs them has unpinned
them. -/
def Control.pinned (c : Control) (ks : List BlockNo) : List BlockNo :=
  match c.committer with
  | some (_, .install tail) => ks.drop tail
  | some (_, .clear) => []
  | _ => ks

/-- The references to a block: one for each process that uses it, and one when it is pinned. -/
def Control.refs (c : Control) (ks : List BlockNo) (b : BlockNo) : Nat :=
  c.users.countP (fun u => u.2 = b) + pins (c.pinned ks) b

/-- **The log has space**: the header is not overfull and lists no block twice, each listed block is
pinned once, and who commits is alone. -/
structure HasSpace (c : Control) (l : LogState) : Prop where
  room : l.lh.n ≤ logBlocks
  nodup : l.lh.blocks.Nodup
  pinned : ∀ b, l.bcache.refs b = c.refs l.lh.blocks b
  alone : c.committer.isSome = true → c.ops = [] ∧ l.outstanding = 0

/-- **There is space**: as long as the machine runs the log has space; and it does not stop with a
panic of the log, though it may be out of buffers. -/
structure SpaceOk (s : Sys) : Prop where
  space : s.panicked = none → HasSpace s.ctl s.log
  panics : ∀ err, s.panicked = some err → err = .noBuffers

/-- **No operation logs a block once more while the log is full.** -/
def Spare (s : Sys) : Event → Prop
  | .logWrite p b => ∀ op ∈ s.ctl.ops, op.pid = p → b ∈ op.logged → s.log.lh.n < logBlocks
  | _ => True

/-! ## Counting references -/

/-- A description of the state without the contents of the blocks. -/
structure Counts (rs : BlockNo → Nat) (lh : LogHeader) (o : Int) (cm : Bool) (s : LogState) :
    Prop where
  distinct : s.bcache.keys.Nodup
  refs : s.bcache.refs = rs
  lh : s.lh = lh
  outstanding : s.outstanding = o
  committing : s.committing = cm

theorem Counts.bread {Q : Block → LogState → Prop} (h : Counts rs lh o cm s)
    (hQ : ∀ v s', Counts (Function.update rs b (rs b + 1)) lh o cm s' → Q v s') :
    wp (Log.bread b) Q (fun _ => True) s := by
  unfold Log.bread
  rw [wp_bind, wp_get]
  cases hg : s.bcache.get b with
  | none => trivial
  | some c =>
    obtain ⟨hkeys, hrefs⟩ := refs_get h.distinct hg
    refine hQ _ _ ⟨?_, ?_, h.lh, h.outstanding, h.committing⟩
    · show (c.fill b (s.disk b)).keys.Nodup
      rw [keys_fill]
      exact hkeys
    · show (c.fill b (s.disk b)).refs = _
      rw [refs_fill, hrefs, h.refs]

theorem Counts.setData {Q : Unit → LogState → Prop} {E : LogState → Prop} (h : Counts rs lh o cm s)
    (hQ : ∀ s', Counts rs lh o cm s' → Q () s') : wp (Log.setData b v) Q E s := by
  refine hQ _ ⟨?_, ?_, h.lh, h.outstanding, h.committing⟩
  · show (s.bcache.setData b v).keys.Nodup
    rw [keys_setData]
    exact h.distinct
  · show (s.bcache.setData b v).refs = rs
    rw [refs_setData, h.refs]

theorem Counts.bwrite {Q : Unit → LogState → Prop} {E : LogState → Prop} (h : Counts rs lh o cm s)
    (hQ : ∀ s', Counts rs lh o cm s' → Q () s') : wp (Log.bwrite b) Q E s :=
  hQ _ ⟨h.distinct, h.refs, h.lh, h.outstanding, h.committing⟩

theorem Counts.brelse {Q : Unit → LogState → Prop} {E : LogState → Prop} (h : Counts rs lh o cm s)
    (hQ : ∀ s', Counts (Function.update rs b (rs b - 1)) lh o cm s' → Q () s') :
    wp (Log.brelse b) Q E s := by
  refine hQ _ ⟨keys_put h.distinct b, ?_, h.lh, h.outstanding, h.committing⟩
  show (s.bcache.put b).refs = _
  rw [refs_put h.distinct, h.refs]

theorem Counts.bunpin {Q : Unit → LogState → Prop} {E : LogState → Prop} (h : Counts rs lh o cm s)
    (hQ : ∀ s', Counts (Function.update rs b (rs b - 1)) lh o cm s' → Q () s') :
    wp (Log.bunpin b) Q E s := by
  refine hQ _ ⟨?_, ?_, h.lh, h.outstanding, h.committing⟩
  · show (s.bcache.dereference b).keys.Nodup
    rw [keys_dereference]
    exact h.distinct
  · show (s.bcache.dereference b).refs = _
    rw [refs_dereference, h.refs]

theorem Counts.bpin {Q : Unit → LogState → Prop} {E : LogState → Prop} (h : Counts rs lh o cm s)
    (hr : 0 < rs b) (hQ : ∀ s', Counts (Function.update rs b (rs b + 1)) lh o cm s' → Q () s') :
    wp (Log.bpin b) Q E s := by
  refine hQ _ ⟨?_, ?_, h.lh, h.outstanding, h.committing⟩
  · show (s.bcache.reference b).keys.Nodup
    rw [keys_reference]
    exact h.distinct
  · show (s.bcache.reference b).refs = _
    rw [← h.refs] at hr
    rw [refs_reference hr, h.refs]

theorem Counts.setHead {lh' : LogHeader} {s' : LogState} (h : Counts rs lh o cm s)
    (hs : s' = { s with lh := lh' }) : Counts rs lh' o cm s' := by
  subst hs
  exact { h with lh := rfl }

/-- A reference that is taken and given back. -/
theorem update_back (rs : BlockNo → Nat) (b : BlockNo) :
    Function.update (Function.update rs b (rs b + 1)) b
      (Function.update rs b (rs b + 1) b - 1) = rs := by
  rw [Function.update_self, Function.update_idem, Nat.add_sub_cancel, Function.update_eq_self]

/-- The functions of a commit give back the references that they take. -/
theorem Counts.writeHead (h : Counts rs lh o cm s) :
    wp Log.writeHead (fun _ => Counts rs lh o cm) (fun _ => True) s := by
  unfold Log.writeHead
  simp only [wp_bind, wp_get]
  refine h.bread fun _ s₁ h₁ => ?_
  refine h₁.setData fun s₂ h₂ => ?_
  refine h₂.bwrite fun s₃ h₃ => ?_
  refine h₃.brelse fun s₄ h₄ => ?_
  rwa [update_back] at h₄

theorem Counts.writeLogBody {tail : Nat} (h : Counts rs lh o cm s) :
    wp (Log.writeLogBody tail b) (fun _ => Counts rs lh o cm) (fun _ => True) s := by
  unfold Log.writeLogBody
  simp only [wp_bind, wp_get]
  refine h.bread fun _ s₁ h₁ => ?_
  refine h₁.bread fun _ s₂ h₂ => ?_
  refine h₂.setData fun s₃ h₃ => ?_
  refine h₃.bwrite fun s₄ h₄ => ?_
  refine h₄.brelse fun s₅ h₅ => ?_
  rw [update_back] at h₅
  refine h₅.brelse fun s₆ h₆ => ?_
  rwa [update_back] at h₆

/-- Installing a block unpins it. -/
theorem Counts.installBody {tail : Nat} (h : Counts rs lh o cm s) :
    wp (Log.installBody false tail b) (fun _ => Counts (Function.update rs b (rs b - 1)) lh o cm)
      (fun _ => True) s := by
  unfold Log.installBody
  simp only [wp_bind, wp_get, if_true]
  refine h.bread fun _ s₁ h₁ => ?_
  refine h₁.bread fun _ s₂ h₂ => ?_
  refine h₂.setData fun s₃ h₃ => ?_
  refine h₃.bwrite fun s₄ h₄ => ?_
  refine h₄.bunpin fun s₅ h₅ => ?_
  rw [update_back] at h₅
  refine h₅.brelse fun s₆ h₆ => ?_
  rw [update_back] at h₆
  exact h₆.brelse fun s₇ h₇ => h₇

/-! ## The reservation -/

/-- The number of blocks that the outstanding operations may still log. -/
def reserve (ops : List Op) : Nat := (ops.map fun op => maxOpBlocks - op.logged.card).sum

theorem reserve_le (ops : List Op) : reserve ops ≤ ops.length * maxOpBlocks := by
  unfold reserve
  induction ops with
  | nil => exact Nat.zero_le _
  | cons op ops ih =>
    rw [List.map_cons, List.sum_cons, List.length_cons, Nat.succ_mul]
    omega

/-- An operation has what is left to it. -/
theorem le_reserve {ops : List Op} {op : Op} (h : op ∈ ops) :
    maxOpBlocks - op.logged.card ≤ reserve ops := by
  unfold reserve
  induction ops with
  | nil => cases h
  | cons a ops ih =>
    rw [List.map_cons, List.sum_cons]
    rcases List.mem_cons.mp h with rfl | hmem
    · exact Nat.le_add_right _ _
    · exact (ih hmem).trans (Nat.le_add_left _ _)

theorem reserve_filter_le (ops : List Op) (p : Op → Bool) :
    reserve (ops.filter p) ≤ reserve ops := by
  unfold reserve
  induction ops with
  | nil => exact Nat.le_refl _
  | cons op ops ih =>
    rw [List.filter_cons]
    split
    · simp only [List.map_cons, List.sum_cons]
      omega
    · simp only [List.map_cons, List.sum_cons]
      omega

@[simp] theorem pid_logged (p : Nat) (b : BlockNo) (ops : List Op) :
    (logged p b ops).map Op.pid = ops.map Op.pid := by
  unfold logged
  rw [List.map_map]
  apply List.map_congr_left
  intro op _
  rw [Function.comp_apply]
  split <;> rfl

theorem logged_of_not {p : Nat} {ops : List Op} (h : p ∉ ops.map Op.pid) (b : BlockNo) :
    logged p b ops = ops := by
  unfold logged
  conv_rhs => rw [← List.map_id ops]
  apply List.map_congr_left
  intro op hop
  rw [if_neg]
  · rfl
  · rintro rfl
    exact h (List.mem_map_of_mem hop)

/-- **A block that is new to the operation** uses up one of its reserved places. -/
theorem reserve_logged {p : Nat} {ops : List Op} {op : Op} (hnd : (ops.map Op.pid).Nodup)
    (hop : op ∈ ops) (hp : op.pid = p) :
    reserve (logged p b ops) + (maxOpBlocks - op.logged.card) =
      reserve ops + (maxOpBlocks - (insert b op.logged).card) := by
  induction ops with
  | nil => cases hop
  | cons a ops ih =>
    rw [List.map_cons, List.nodup_cons] at hnd
    have hcons : logged p b (a :: ops) =
      (if a.pid = p then { a with logged := insert b a.logged } else a) :: logged p b ops := rfl
    rw [hcons]
    simp only [reserve, List.map_cons, List.sum_cons] at ih ⊢
    rcases List.mem_cons.mp hop with rfl | hmem
    · rw [if_pos hp, logged_of_not (by rw [← hp]; exact hnd.1)]
      dsimp only
      omega
    · have hne : a.pid ≠ p := by
        rintro rfl
        exact hnd.1 (hp ▸ List.mem_map_of_mem hmem)
      rw [if_neg hne]
      have := ih hnd.2 hmem
      omega

/-! ## The functions of the log -/

theorem Counts.beginOp {Q : Bool → LogState → Prop} {E : LogState → Prop} (h : Counts rs lh o cm s)
    (hwait : Q false s)
    (hbegin : cm = false → lh.n + (o + 1) * maxOpBlocks ≤ logBlocks →
      ∀ s', Counts rs lh (o + 1) cm s' → Q true s') :
    wp Log.beginOp Q E s := by
  unfold Log.beginOp
  rw [wp_bind, wp_get]
  split
  · exact hwait
  next hcm =>
  split
  · exact hwait
  next hroom =>
  rw [h.lh, h.outstanding, not_lt] at hroom
  rw [h.committing, Bool.not_eq_true] at hcm
  refine hbegin hcm hroom _ ⟨h.distinct, h.refs, h.lh, ?_, h.committing⟩
  show s.outstanding + 1 = o + 1
  rw [h.outstanding]

/-- **`log_write`** does not panic when the header is not full. -/
theorem Counts.logWrite {Q : Unit → LogState → Prop} {E : LogState → Prop} (h : Counts rs lh o cm s)
    (hr : 0 < rs b) (hl : Lists lh ks) (hroom : ks.length < logBlocks) (ho : 1 ≤ o)
    (hmem : b ∈ ks → ∀ s', Counts rs lh o cm s' → Q () s')
    (hnew : b ∉ ks → ∀ lh' s', Lists lh' (ks ++ [b]) →
      Counts (Function.update rs b (rs b + 1)) lh' o cm s' →
      Q () s') : wp (Log.logWrite b) Q E s := by
  unfold Log.logWrite
  rw [wp_bind, wp_get]
  dsimp only
  rw [h.lh, hl.n, if_neg (by omega), h.outstanding, if_neg (by omega), wp_bind, wp_modify, h.lh]
  by_cases hb : b ∈ ks
  · obtain ⟨hlt, hblock⟩ := findBlock_of_mem hl hb
    rw [if_neg (by omega), wp_pure]
    refine hmem hb _ (h.setHead (congrArg _ ?_))
    rw [Function.update_eq_self_iff.mpr hblock.symm]
  · rw [findBlock_of_not hl hb, if_pos rfl, wp_bind]
    refine (h.setHead rfl).bpin hr fun s' hs' => ?_
    rw [wp_modify]
    refine hnew hb _ _ (hl.push b) (hs'.setHead ?_)
    rw [hs'.lh, hl.n]

/-- A full header: `log_write` panics, whether the block is in it or not. -/
theorem logWrite_full (h : (logBlocks : Int) ≤ s.lh.n) :
    (Log.logWrite b).exec s = (.error .tooBig, s) := by
  unfold Log.logWrite
  rw [exec_bind]
  show (ite _ _ _ : LogM Unit).exec s = _
  rw [if_pos h]
  rfl

theorem Counts.endOpStart {Q : Bool → LogState → Prop} {E : LogState → Prop}
    (h : Counts rs lh o false s) (hlast : o = 1 → ∀ s', Counts rs lh 0 true s' → Q true s')
    (hmore : o ≠ 1 → ∀ s', Counts rs lh (o - 1) false s' → Q false s') :
    wp Log.endOpStart Q E s := by
  unfold Log.endOpStart
  simp only [wp_bind, wp_modify, wp_get]
  rw [h.committing, if_neg Bool.false_ne_true, h.outstanding]
  split
  · next hlast' =>
    rw [wp_bind, wp_modify, wp_pure]
    refine hlast (by omega) _ ⟨h.distinct, h.refs, h.lh, hlast', rfl⟩
  · next hmore' =>
    exact hmore (by omega) _ ⟨h.distinct, h.refs, h.lh, rfl, rfl⟩

/-! ## The invariant -/

/-- **The invariant**: the header lists `ks`, which is what the operations have logged and more, and
leaves room for what they may still log. -/
structure LogInv (ks : List BlockNo) (c : Control) (l : LogState) : Prop where
  counts : Counts (c.refs ks) l.lh c.ops.length c.committer.isSome l
  lists : Lists l.lh ks
  nodup : ks.Nodup
  room : ks.length + reserve c.ops ≤ logBlocks
  pids : (c.ops.map Op.pid).Nodup
  logged : ∀ op ∈ c.ops, ∀ b ∈ op.logged, b ∈ ks
  alone : c.committer.isSome = true → c.ops = []

variable {c : Control} {l : LogState} {p : Nat}

theorem Start.inv {s : Sys} (h : Start s) : LogInv [] s.ctl s.log := by
  rw [h.ctl]
  refine ⟨⟨h.distinct, funext fun b => ?_, rfl, h.outstanding, h.committing⟩,
    ⟨h.n, fun i hi => absurd hi (Nat.not_lt_zero i)⟩, List.nodup_nil, Nat.zero_le _, List.nodup_nil,
    fun _ hop => absurd hop List.not_mem_nil, fun _ => rfl⟩
  rw [h.refs]
  rfl

/-- The listed blocks are those of the header. -/
theorem Lists.blocks (h : Lists lh ks) : lh.blocks = ks := by
  unfold LogHeader.blocks
  rw [h.n, Int.toNat_natCast]
  apply List.ext_getElem?
  intro i
  rw [List.getElem?_map]
  by_cases hi : i < ks.length
  · rw [List.getElem?_range hi, h.block i hi]
    rfl
  · rw [List.getElem?_eq_none (by simpa using hi), List.getElem?_eq_none (by simpa using hi)]
    rfl

theorem LogInv.hasSpace (h : LogInv ks c l) : HasSpace c l where
  room := by
    have := h.room
    rw [h.lists.n]
    omega
  nodup := by
    rw [h.lists.blocks]
    exact h.nodup
  pinned b := by
    rw [h.lists.blocks, h.counts.refs]
  alone hc := by
    have hops := h.alone hc
    refine ⟨hops, ?_⟩
    rw [h.counts.outstanding, hops]
    rfl

/-! ## One step -/

theorem refs_use (c : Control) (ks : List BlockNo) (p : Nat) (b : BlockNo) :
    Control.refs { c with users := (p, b) :: c.users } ks =
    Function.update (c.refs ks) b (c.refs ks b + 1) := by
  funext k
  show ((p, b) :: c.users).countP _ + _ = _
  rw [List.countP_cons]
  by_cases hk : k = b
  · rw [hk, Function.update_self, if_pos (by simp), Control.refs]
    show _ + 1 + pins (c.pinned ks) b = _
    omega
  · rw [Function.update_of_ne hk, if_neg (by simpa using Ne.symm hk)]
    rfl

/-- A process that uses a block has a reference to it. -/
theorem refs_pos (h : (p, b) ∈ c.users) (ks : List BlockNo) :
    0 < c.users.countP (fun u => u.2 = b) ∧ 0 < c.refs ks b := by
  have hpos : 0 < c.users.countP (fun u => u.2 = b) := List.countP_pos_iff.mpr ⟨_, h, by simp⟩
  exact ⟨hpos, Nat.lt_of_lt_of_le hpos (Nat.le_add_right _ _)⟩

theorem refs_unuse (h : (p, b) ∈ c.users) (ks : List BlockNo) :
    Control.refs { c with users := c.users.erase (p, b) } ks =
      Function.update (c.refs ks) b (c.refs ks b - 1) := by
  have hpos := (refs_pos h ks).1
  funext k
  show (c.users.erase (p, b)).countP _ + pins (c.pinned ks) k = _
  rw [List.countP_erase]
  by_cases hk : k = b
  · subst hk
    rw [Function.update_self, if_pos ⟨h, by simp⟩, Control.refs]
    omega
  · rw [Function.update_of_ne hk, if_neg (fun hc => hk (of_decide_eq_true hc.2).symm)]
    rfl

/-- Without a commit in progress, all listed blocks are pinned. -/
theorem pinned_of_none (h : c.committer = none) (ks : List BlockNo) : c.pinned ks = ks := by
  unfold Control.pinned
  rw [h]

theorem refs_of_none (h : c.committer = none) (ks : List BlockNo) (k : BlockNo) :
    c.refs ks k = c.users.countP (fun u => u.2 = k) + pins ks k := by
  rw [Control.refs, pinned_of_none h]

/-- Nobody commits while an operation is outstanding. -/
theorem LogInv.committer_eq_none (h : LogInv ks c l) {op : Op} (hop : op ∈ c.ops) :
    c.committer = none := by
  by_contra hc
  rw [h.alone (Option.isSome_iff_ne_none.mpr hc)] at hop
  cases hop

/-- One operation fewer. -/
theorem length_filter_pid {ops : List Op} (hnd : (ops.map Op.pid).Nodup) (h : p ∈ ops.map Op.pid) :
    (ops.filter fun op => op.pid ≠ p).length + 1 = ops.length := by
  induction ops with
  | nil => cases h
  | cons a ops ih =>
    rw [List.map_cons, List.nodup_cons] at hnd
    rw [List.filter_cons]
    rcases List.mem_cons.mp h with rfl | hmem
    · rw [if_neg (by simp), List.filter_eq_self.mpr]
      · rfl
      · intro op hop
        rw [decide_eq_true_eq]
        intro heq
        exact hnd.1 (heq ▸ List.mem_map_of_mem hop)
    · rw [if_pos]
      · rw [List.length_cons, List.length_cons, ih hnd.2 hmem]
      · rw [decide_eq_true_eq]
        rintro rfl
        exact hnd.1 hmem

/-- **`begin_op`** reserves as many blocks as an operation may log. -/
theorem LogInv.beginOp (h : LogInv ks c l) (hmay : c.may (.beginOp p) = true) :
    wp (c.program (.beginOp p)) (fun c' l' => ∃ ks', LogInv ks' c' l') (fun _ => False) l := by
  unfold Control.program
  rw [wp_bind]
  refine h.counts.beginOp ⟨ks, h⟩ fun hcm hroom l' hl' => ?_
  rw [if_pos rfl, wp_pure]
  unfold Control.may at hmay
  simp only [Bool.and_eq_true, List.all_eq_true, decide_eq_true_eq] at hmay
  refine ⟨ks, ⟨?_, hl'.lh ▸ h.lists, h.nodup, ?_, ?_, fun op hop => ?_, fun hc => ?_⟩⟩
  · rw [hl'.lh, show ((({ pid := p, logged := ∅ } : Op) :: c.ops).length : Int) =
      c.ops.length + 1 from by push_cast [List.length_cons]; rfl]
    exact hl'
  · have hle := reserve_le c.ops
    rw [h.lists.n] at hroom
    show ks.length + reserve (_ :: c.ops) ≤ logBlocks
    simp only [reserve, List.map_cons, List.sum_cons, Finset.card_empty, maxOpBlocks,
      logBlocks] at hle hroom ⊢
    omega
  · rw [List.map_cons, List.nodup_cons]
    refine ⟨fun hmem => ?_, h.pids⟩
    obtain ⟨op, hop, hpid⟩ := List.mem_map.mp hmem
    exact hmay.1 op hop hpid
  · rcases List.mem_cons.mp hop with rfl | hop
    · intro b hb
      cases hb
    · exact h.logged op hop
  · rw [show c.committer.isSome = false from hcm] at hc
    cases hc

/-- **`log_write`** of a block that the operation has not logged, or while the log is not full. -/
theorem LogInv.logWrite (h : LogInv ks c l) (hmay : c.may (.logWrite p b) = true)
    (hspare : ∀ op ∈ c.ops, op.pid = p → b ∈ op.logged → l.lh.n < logBlocks) :
    wp (c.program (.logWrite p b)) (fun c' l' => ∃ ks', LogInv ks' c' l') (fun _ => False) l := by
  unfold Control.may at hmay
  simp only [Bool.and_eq_true, List.any_eq_true, decide_eq_true_eq] at hmay
  obtain ⟨huser, op, hop, hpid, hcard⟩ := hmay
  have hbusy := h.committer_eq_none hop
  have hplaces := reserve_logged (b := b) h.pids hop hpid
  have hroom : ks.length < logBlocks := by
    by_cases hb : b ∈ op.logged
    · have := hspare op hop hpid hb
      rw [h.lists.n] at this
      exact_mod_cast this
    · have := h.room
      have := le_reserve hop
      rw [Finset.card_insert_of_notMem hb] at hcard
      omega
  have hone : (1 : Int) ≤ c.ops.length := by
    have := List.length_pos_of_mem hop
    omega
  have hlogged : ∀ ks', ks ⊆ ks' → b ∈ ks' → ∀ op' ∈ Log.logged p b c.ops, ∀ b' ∈ op'.logged,
    b' ∈ ks' := by
    intro ks' hsub hbk op' hop' b' hb'
    obtain ⟨op₀, hop₀, rfl⟩ := List.mem_map.mp hop'
    split at hb'
    · rcases Finset.mem_insert.mp hb' with rfl | hb'
      · exact hbk
      · exact hsub (h.logged op₀ hop₀ b' hb')
    · exact hsub (h.logged op₀ hop₀ b' hb')
  have hlen : ((Log.logged p b c.ops).length : Int) = c.ops.length := by
    unfold Log.logged
    rw [List.length_map]
  have halone : c.committer.isSome = true → Log.logged p b c.ops = [] := fun hc => by
    rw [hbusy] at hc
    cases hc
  unfold Control.program
  rw [wp_bind]
  refine h.counts.logWrite (refs_pos huser ks).2 h.lists hroom hone (fun hmem l' hl' => ?_)
    fun hnew lh' l' hl hl' => ?_
  · -- the block is in the header already
    refine ⟨ks, ⟨?_, hl'.lh ▸ h.lists, h.nodup, ?_, by rw [pid_logged]; exact h.pids,
      hlogged ks (fun _ hk => hk) hmem, halone⟩⟩
    · rw [hlen, hl'.lh]
      exact hl'
    · have := h.room
      have := Finset.card_le_card (Finset.subset_insert b op.logged)
      show ks.length + reserve (Log.logged p b c.ops) ≤ logBlocks
      omega
  · -- the block is added, and the operation has one place less
    have hb : b ∉ op.logged := fun hb => hnew (h.logged op hop b hb)
    rw [Finset.card_insert_of_notMem hb] at hplaces hcard
    refine ⟨ks ++ [b], ⟨?_, hl'.lh ▸ hl, ?_, ?_, by rw [pid_logged]; exact h.pids,
      hlogged _ (List.subset_append_left _ _) (by simp), halone⟩⟩
    · rw [hlen, hl'.lh]
      refine { hl' with refs := hl'.refs.trans ?_ }
      funext k
      rw [refs_of_none (c := { c with ops := Log.logged p b c.ops }) hbusy]
      by_cases hk : k = b
      · rw [hk, Function.update_self, refs_of_none hbusy, pins_of_not hnew, pins_of_mem (by simp)]
      · rw [Function.update_of_ne hk, refs_of_none hbusy]
        simp [pins, hk]
    · rw [List.nodup_append]
      refine ⟨h.nodup, List.nodup_singleton b, ?_⟩
      rintro k hk _ hk' rfl
      exact hnew (List.mem_singleton.mp hk' ▸ hk)
    · have := h.room
      rw [List.length_append, List.length_singleton]
      show ks.length + 1 + reserve (Log.logged p b c.ops) ≤ logBlocks
      omega

/-- **`end_op`**: the places of the operation are free again; the last one to end commits. -/
theorem LogInv.endOp (h : LogInv ks c l) (hmay : c.may (.endOp p) = true) :
    wp (c.program (.endOp p)) (fun c' l' => ∃ ks', LogInv ks' c' l') (fun _ => False) l := by
  unfold Control.may at hmay
  simp only [List.any_eq_true, decide_eq_true_eq] at hmay
  obtain ⟨op, hop, hpid⟩ := hmay
  have hbusy := h.committer_eq_none hop
  have hcounts := h.counts
  rw [hbusy] at hcounts
  have hlen := length_filter_pid h.pids (List.mem_map.mpr ⟨op, hop, hpid⟩)
  have hroom : ks.length + reserve (c.ops.filter fun op => op.pid ≠ p) ≤ logBlocks := by
    have := h.room
    have := reserve_filter_le c.ops fun op => op.pid ≠ p
    omega
  have hpids : ((c.ops.filter fun op => op.pid ≠ p).map Op.pid).Nodup :=
    h.pids.sublist (List.filter_sublist.map _)
  have hlogged : ∀ op ∈ c.ops.filter fun op => op.pid ≠ p, ∀ b ∈ op.logged, b ∈ ks :=
    fun op hop => h.logged op (List.mem_of_mem_filter hop)
  unfold Control.program
  rw [wp_bind]
  refine hcounts.endOpStart (fun hlast l' hl' => ?_) fun hmore l' hl' => ?_
  · have hnil : (c.ops.filter fun op => op.pid ≠ p) = [] := List.eq_nil_of_length_eq_zero (by omega)
    refine ⟨ks, ⟨?_, hl'.lh ▸ h.lists, h.nodup, hroom, hpids, hlogged, fun _ => hnil⟩⟩
    rw [hl'.lh]
    refine { hl' with refs := hl'.refs.trans ?_, outstanding := hl'.outstanding.trans ?_ }
    · funext k
      show _ + pins (c.pinned ks) k = _ + pins ks k
      rw [pinned_of_none hbusy]
    · dsimp only
      rw [hnil]
      rfl
  · refine ⟨ks, ⟨?_, hl'.lh ▸ h.lists, h.nodup, hroom, hpids, hlogged, fun hc => ?_⟩⟩
    · rw [hl'.lh]
      refine { hl' with
        outstanding := hl'.outstanding.trans ?_
        committing := hl'.committing.trans ?_ }
      · dsimp only
        omega
      · dsimp only
        rw [if_neg Bool.false_ne_true, hbusy]
        rfl
    · rw [if_neg Bool.false_ne_true, hbusy] at hc
      cases hc

/-- What `commit` keeps while it has steps left: it is alone. -/
theorem LogInv.committing (h : LogInv ks c l) {phase : Phase} (hc : c.committer = some (p, phase)) :
    c.ops = [] ∧ Counts (c.refs ks) l.lh 0 true l := by
  have hops := h.alone (Option.isSome_iff_exists.mpr ⟨_, hc⟩)
  have hcounts := h.counts
  rw [hops, hc] at hcounts
  exact ⟨hops, hcounts⟩

/-- The invariant in the next phase of the commit. -/
theorem LogInv.phase {ks' : List BlockNo} {l' : LogState} {phase : Phase} (h : LogInv ks c l)
    (hops : c.ops = []) (hks : ks' = ks ∨ ks' = [])
    (hl : Lists l'.lh ks')
    (hcounts : Counts (Control.refs { c with committer := some (p, phase) } ks') l'.lh 0 true l') :
    LogInv ks' { c with committer := some (p, phase) } l' where
  counts := by
    rw [show ({ c with committer := some (p, phase) } : Control).ops = [] from hops]
    exact hcounts
  lists := hl
  nodup := by
    rcases hks with rfl | rfl
    · exact h.nodup
    · exact List.nodup_nil
  room := by
    have := h.room
    rcases hks with rfl | rfl
    · exact this
    · exact (Nat.add_le_add_right (Nat.zero_le _) _).trans this
  pids := h.pids
  logged op hop := by
    rw [show ({ c with committer := some (p, phase) } : Control).ops = [] from hops] at hop
    cases hop
  alone _ := hops

/-- The references when the commit goes on with the pins `pinned`. -/
theorem refs_phase {phase : Phase} (c : Control) (p : Nat) (ks : List BlockNo) (b : BlockNo) :
    Control.refs { c with committer := some (p, phase) } ks b =
      c.users.countP (fun u => u.2 = b) + pins
      (Control.pinned { c with committer := some (p, phase) } ks) b := rfl

/-- **A step of a commit** keeps the invariant: the blocks are unpinned one by one as they are
installed, and then the header is emptied. -/
theorem LogInv.commit (h : LogInv ks c l) :
    wp (c.program .commit) (fun c' l' => ∃ ks', LogInv ks' c' l') (fun _ => True) l := by
  unfold Control.program
  cases hc : c.committer with
  | none => exact ⟨ks, h⟩
  | some q =>
    obtain ⟨p, phase⟩ := q
    obtain ⟨hops, hcounts⟩ := h.committing hc
    dsimp only
    -- the phases in which the listed blocks are pinned
    have hsame : ∀ {phase'} {l' : LogState},
        Control.pinned { c with committer := some (p, phase') } ks = c.pinned ks →
        Counts (c.refs ks) l.lh 0 true l' →
        ∃ ks', LogInv ks' { c with committer := some (p, phase') } l' := by
      intro phase' l' hpinned hl'
      refine ⟨ks, h.phase hops (Or.inl rfl) (hl'.lh ▸ h.lists) ?_⟩
      rw [hl'.lh]
      refine { hl' with refs := hl'.refs.trans (funext fun k => ?_) }
      rw [refs_phase, hpinned, Control.refs]
    have hall : ∀ {phase'}, (∀ tail, phase' ≠ .install tail) → phase' ≠ .clear →
        Control.pinned { c with committer := some (p, phase') } ks = ks := by
      intro phase' hinstall hclear
      unfold Control.pinned
      cases phase' with
      | install tail => exact absurd rfl (hinstall tail)
      | clear => exact absurd rfl hclear
      | check | writeLog | writeHead | erase | finish => rfl
    rw [wp_bind]
    cases phase with
    | check =>
      have hpinned : c.pinned ks = ks := by rw [Control.pinned, hc]
      unfold Phase.step
      rw [wp_bind, wp_get]
      split
      · exact hsame ((hall (by simp) (by simp)).trans hpinned.symm) hcounts
      · exact hsame ((hall (by simp) (by simp)).trans hpinned.symm) hcounts
    | writeLog tail =>
      have hpinned : c.pinned ks = ks := by rw [Control.pinned, hc]
      unfold Phase.step
      rw [wp_bind, wp_get]
      dsimp only
      split
      · rw [wp_bind]
        refine wp_mono hcounts.writeLogBody (fun _ l' hl' => ?_) fun _ h => h
        exact hsame ((hall (by simp) (by simp)).trans hpinned.symm) hl'
      · exact hsame ((hall (by simp) (by simp)).trans hpinned.symm) hcounts
    | writeHead =>
      have hpinned : c.pinned ks = ks := by rw [Control.pinned, hc]
      unfold Phase.step
      rw [wp_bind]
      refine wp_mono hcounts.writeHead (fun _ l' hl' => ?_) fun _ h => h
      exact hsame (Eq.trans (List.drop_zero ..) hpinned.symm) hl'
    | install tail =>
      have hpinned : c.pinned ks = ks.drop tail := by rw [Control.pinned, hc]
      unfold Phase.step
      rw [wp_bind, wp_get]
      dsimp only
      split
      · -- the block is installed and unpinned
        next hlt =>
        rw [h.lists.n] at hlt
        have htail : tail < ks.length := by exact_mod_cast hlt
        have hdrop : ks.drop tail = l.lh.block tail :: ks.drop (tail + 1) := by
          rw [List.drop_eq_getElem_cons htail]
          have := h.lists.block tail htail
          rw [List.getElem?_eq_getElem htail] at this
          rw [Option.some.inj this]
        have hnot : l.lh.block tail ∉ ks.drop (tail + 1) := by
          have hnd := h.nodup.sublist (List.drop_sublist tail ks)
          rw [hdrop, List.nodup_cons] at hnd
          exact hnd.1
        rw [wp_bind]
        refine wp_mono hcounts.installBody (fun _ l' hl' => ?_) fun _ h => h
        refine ⟨ks, h.phase hops (Or.inl rfl) (hl'.lh ▸ h.lists) ?_⟩
        rw [hl'.lh]
        refine { hl' with refs := hl'.refs.trans (funext fun k => ?_) }
        rw [refs_phase]
        show _ = _ + pins (ks.drop (tail + 1)) k
        by_cases hk : k = l.lh.block tail
        · rw [hk, Function.update_self, Control.refs, hpinned, hdrop,
            pins_of_mem List.mem_cons_self, pins_of_not hnot, Nat.add_sub_cancel]
          rfl
        · rw [Function.update_of_ne hk, Control.refs, hpinned, hdrop]
          simp only [pins, List.mem_cons, hk, false_or]
      · -- all blocks are installed
        next hge =>
        rw [h.lists.n, not_lt] at hge
        refine hsame ?_ hcounts
        rw [hpinned, List.drop_eq_nil_of_le (by exact_mod_cast hge)]
        rfl
    | clear =>
      have hpinned : c.pinned ks = [] := by rw [Control.pinned, hc]
      unfold Phase.step
      rw [wp_bind]
      have hcleared : Counts (c.refs ks) { l.lh with n := 0 } 0 true _ := hcounts.setHead rfl
      refine ⟨[], h.phase hops (Or.inr rfl) (Lists.clear l.lh) ?_⟩
      refine { hcleared with refs := hcleared.refs.trans (funext fun k => ?_) }
      rw [refs_phase, Control.refs, hpinned]
      rfl
    | erase =>
      have hpinned : c.pinned ks = ks := by rw [Control.pinned, hc]
      unfold Phase.step
      rw [wp_bind]
      refine wp_mono hcounts.writeHead (fun _ l' hl' => ?_) fun _ h => h
      exact hsame ((hall (by simp) (by simp)).trans hpinned.symm) hl'
    | finish =>
      have hpinned : c.pinned ks = ks := by rw [Control.pinned, hc]
      refine ⟨ks, ⟨⟨hcounts.distinct, ?_, rfl, ?_, rfl⟩, h.lists, h.nodup, h.room, h.pids, h.logged,
        fun hc => by cases hc⟩⟩
      · refine hcounts.refs.trans (funext fun k => ?_)
        rw [Control.refs, hpinned]
        rfl
      · show l.outstanding = _
        rw [hcounts.outstanding, hops]
        rfl

/-! ## Panics -/

theorem failsWith_bread (b : BlockNo) : FailsWith (Log.bread b) .noBuffers := by
  unfold Log.bread
  refine (failsWith_get _).bind fun s => ?_
  cases s.bcache.get b with
  | none => exact failsWith_throw _
  | some c => exact (failsWith_modify _ _).bind fun _ => failsWith_pure _ _

theorem failsWith_writeHead : FailsWith Log.writeHead .noBuffers := by
  unfold Log.writeHead
  refine (failsWith_get _).bind fun s => (failsWith_bread _).bind fun _ =>
    (failsWith_get _).bind fun _ => ?_
  exact (failsWith_modify _ _).bind fun _ => (failsWith_modify _ _).bind fun _ =>
    failsWith_modify _ _

/-- **A commit** only fails when it gets no buffer. -/
theorem Phase.failsWith (phase : Phase) : FailsWith phase.step .noBuffers := by
  cases phase with
  | check =>
    refine (failsWith_get _).bind fun s => ?_
    split <;> exact failsWith_pure _ _
  | writeLog tail =>
    refine (failsWith_get _).bind fun s => ?_
    dsimp only
    split
    · refine FailsWith.bind ?_ fun _ => failsWith_pure _ _
      unfold writeLogBody
      refine (failsWith_get _).bind fun _ => (failsWith_bread _).bind fun _ =>
        (failsWith_bread _).bind fun _ => ?_
      refine (failsWith_modify _ _).bind fun _ => (failsWith_modify _ _).bind fun _ => ?_
      exact (failsWith_modify _ _).bind fun _ => failsWith_modify _ _
    · exact failsWith_pure _ _
  | writeHead => exact failsWith_writeHead.bind fun _ => failsWith_pure _ _
  | install tail =>
    refine (failsWith_get _).bind fun s => ?_
    dsimp only
    split
    · refine FailsWith.bind ?_ fun _ => failsWith_pure _ _
      unfold installBody
      refine (failsWith_get _).bind fun _ => (failsWith_bread _).bind fun _ =>
        (failsWith_bread _).bind fun _ => ?_
      refine (failsWith_modify _ _).bind fun _ => (failsWith_modify _ _).bind fun _ => ?_
      rw [if_pos rfl]
      exact (failsWith_modify _ _).bind fun _ => (failsWith_modify _ _).bind fun _ =>
        failsWith_modify _ _
    · exact failsWith_pure _ _
  | clear => exact (failsWith_modify _ _).bind fun _ => failsWith_pure _ _
  | erase => exact failsWith_writeHead.bind fun _ => failsWith_pure _ _
  | finish => exact (failsWith_modify _ _).bind fun _ => failsWith_pure _ _

/-! ## Runs -/

/-- **A step keeps the invariant**, when it meets the condition. -/
theorem LogInv.returns {s : Sys} {e : Event} (h : LogInv ks s.ctl s.log) (hmay : s.ctl.may e = true)
    (hspare : Spare s e) :
    wp (s.ctl.program e) (fun c' l' => ∃ ks', LogInv ks' c' l') (fun _ => True) s.log := by
  cases e with
  | beginOp p => exact wp_mono (h.beginOp hmay) (fun _ _ h => h) fun _ _ => trivial
  | logWrite p b => exact wp_mono (h.logWrite hmay hspare) (fun _ _ h => h) fun _ _ => trivial
  | endOp p => exact wp_mono (h.endOp hmay) (fun _ _ h => h) fun _ _ => trivial
  | commit => exact h.commit
  | bread p b =>
    unfold Control.program
    rw [wp_bind]
    refine h.counts.bread fun _ l' hl' =>
      ⟨ks, ⟨?_, hl'.lh ▸ h.lists, h.nodup, h.room, h.pids, h.logged, h.alone⟩⟩
    rw [refs_use, hl'.lh]
    exact hl'
  | setData p b v =>
    unfold Control.program
    rw [wp_bind]
    refine h.counts.setData fun l' hl' =>
      ⟨ks, ⟨?_, hl'.lh ▸ h.lists, h.nodup, h.room, h.pids, h.logged, h.alone⟩⟩
    rw [hl'.lh]
    exact hl'
  | brelse p b =>
    unfold Control.program
    rw [wp_bind]
    refine h.counts.brelse fun l' hl' =>
      ⟨ks, ⟨?_, hl'.lh ▸ h.lists, h.nodup, h.room, h.pids, h.logged, h.alone⟩⟩
    rw [refs_unuse (of_decide_eq_true hmay), hl'.lh]
    exact hl'

/-- **The only panic** of a step that meets the condition is that there is no buffer. -/
theorem LogInv.panics {s : Sys} {e : Event} {err : Panic} (h : LogInv ks s.ctl s.log)
    (hmay : s.ctl.may e = true) (hspare : Spare s e)
    (hrun : (s.ctl.program e).exec s.log = (.error err, l)) : err = .noBuffers := by
  have hfails : ∀ {x : LogM Control}, FailsWith x .noBuffers → x.exec s.log = (.error err, l) →
      err = .noBuffers := fun hx hrun => hx _ _ _ hrun
  cases e with
  | beginOp p => exact (wp_failed (h.beginOp hmay) hrun).elim
  | logWrite p b => exact (wp_failed (h.logWrite hmay hspare) hrun).elim
  | endOp p => exact (wp_failed (h.endOp hmay) hrun).elim
  | commit =>
    refine hfails ?_ hrun
    unfold Control.program
    cases s.ctl.committer with
    | none => exact failsWith_pure _ _
    | some q => exact q.2.failsWith.bind fun _ => failsWith_pure _ _
  | bread p b => exact hfails ((failsWith_bread b).bind fun _ => failsWith_pure _ _) hrun
  | setData p b v | brelse p b =>
    exact hfails ((failsWith_modify _ _).bind fun _ => failsWith_pure _ _) hrun

/-- Space, with the invariant that gives it. -/
def SpaceInv (s : Sys) : Prop :=
  (s.panicked = none → ∃ ks, LogInv ks s.ctl s.log) ∧ ∀ err, s.panicked = some err →
    err = .noBuffers

theorem SpaceInv.spaceOk {s : Sys} (h : SpaceInv s) : SpaceOk s where
  space hrunning := by
    obtain ⟨ks, hinv⟩ := h.1 hrunning
    exact hinv.hasSpace
  panics := h.2

theorem SpaceInv.step {s s' : Sys} {e : Event} (h : SpaceInv s) (hspare : Spare s e)
    (hstep : Step s e s') :
    SpaceInv s' := by
  cases hstep with
  | returns running may run =>
    obtain ⟨ks, hinv⟩ := h.1 running
    refine ⟨fun _ => wp_returned (hinv.returns may hspare) run, fun err herr => ?_⟩
    cases herr
  | panics running may run =>
    obtain ⟨ks, hinv⟩ := h.1 running
    refine ⟨fun hnone => (by cases hnone), fun err' herr => ?_⟩
    cases herr
    exact hinv.panics may hspare run

/-- A step that does not meet the condition panics. -/
theorem panicked_of_not_spare {s s' : Sys} {e : Event} (hspare : ¬ Spare s e)
    (hstep : Step s e s') : s'.panicked = some .tooBig := by
  cases e with
  | beginOp | bread | setData | brelse | endOp | commit => exact absurd trivial hspare
  | logWrite p b =>
    unfold Spare at hspare
    push Not at hspare
    obtain ⟨op, -, -, -, hfull⟩ := hspare
    have hprog : (s.ctl.program (.logWrite p b)).exec s.log = (.error .tooBig, s.log) := by
      unfold Control.program
      rw [exec_bind, logWrite_full hfull]
    cases hstep with
    | returns running may run =>
      rw [hprog] at run
      cases run
    | panics running may run =>
      rw [hprog] at run
      cases run
      rfl

/-! ## Computed runs -/

/-- The step of an event, when it is allowed. -/
def Sys.next (s : Sys) (e : Event) : Option Sys :=
  if s.panicked.isNone && s.ctl.may e then
    match (s.ctl.program e).exec s.log with
    | (.ok c, l) => some { log := l, ctl := c }
    | (.error err, l) => some { log := l, ctl := s.ctl, panicked := some err }
  else none

theorem step_of_next {s s' : Sys} {e : Event} (h : s.next e = some s') : Step s e s' := by
  unfold Sys.next at h
  split at h
  · next hmay =>
    rw [Bool.and_eq_true, Option.isNone_iff_eq_none] at hmay
    split at h
    · next c l hrun =>
      cases h
      exact .returns hmay.1 hmay.2 hrun
    · next err l hrun =>
      cases h
      exact .panics hmay.1 hmay.2 hrun
  · cases h

/-- The condition, computed. -/
def Sys.spares (s : Sys) : Event → Bool
  | .logWrite p b => s.ctl.ops.all fun op => op.pid ≠ p || b ∉ op.logged || s.log.lh.n < logBlocks
  | _ => true

theorem spare_of_spares {s : Sys} {e : Event} (h : s.spares e = true) : Spare s e := by
  cases e with
  | beginOp | bread | setData | brelse | endOp | commit => exact trivial
  | logWrite p b =>
    intro op hop hpid hb
    have := List.all_eq_true.mp h op hop
    simpa [hpid, hb] using this

/-- The log after boot, with nothing in it. -/
def emptyLog : Sys := { log := { disk := fun _ _ => 0, bcache := binit, start := 2 } }

theorem start_emptyLog : Start emptyLog :=
  ⟨rfl, rfl, (binit_ok fun _ _ => 0).distinct, refs_binit, rfl, rfl, rfl⟩

/-- An operation reads, logs and releases ten blocks, from `b` on. -/
def logTen (p b : Nat) : List Event :=
  (List.range 10).flatMap fun i =>
    [.bread p (BitVec.ofNat 32 (b + i)), .logWrite p (BitVec.ofNat 32 (b + i)),
      .brelse p (BitVec.ofNat 32 (b + i))]

/-- **The log has space, unless an operation logs a block once more while it is full**: there is
space in every state of a run whose steps all meet the condition, and the first step that does not
meet it panics with "too big a transaction". -/
theorem space_ok {s₀ s : Sys} {es : List Event} (hs : Start s₀)
    (hrun : Run.Meets Step Spare s₀ es s) :
    SpaceOk s ∧ ∀ e s', Step s e s' → ¬ Spare s e → s'.panicked = some .tooBig ∧ ¬ SpaceOk s' := by
  have hinv : SpaceInv s := Run.invariant_of_meets (fun _ _ _ h hspare hstep => h.step hspare hstep)
    hrun ⟨fun _ => ⟨[], hs.inv⟩, fun err herr => by
      rw [hs.running] at herr
      cases herr⟩
  refine ⟨hinv.spaceOk, fun e s' hstep hspare => ?_⟩
  have hpanic := panicked_of_not_spare hspare hstep
  refine ⟨hpanic, fun hok => ?_⟩
  have := hok.panics _ hpanic
  cases this

/-- Three operations log ten blocks each. -/
def threeTens : List Event :=
  [.beginOp 1, .beginOp 2, .beginOp 3] ++ logTen 1 100 ++ logTen 2 200 ++ logTen 3 300

set_option maxRecDepth 100000 in
/-- Three operations fill the log, each with ten blocks of its own. -/
theorem space_ok_filled : ∃ s, Run.Meets Step Spare emptyLog threeTens s ∧ s.log.lh.n = logBlocks ∧
    SpaceOk s := by
  have hsome : ((Run.after (fun s e => if s.spares e then s.next e else none) threeTens
    emptyLog).map
      fun s => s.log.lh.n) = some 30 := by
    decide +kernel
  obtain ⟨s, hs, hn⟩ := Option.map_eq_some_iff.mp hsome
  have hrun : Run.Meets Step Spare emptyLog ([] ++ threeTens) s := by
    refine Run.meets_of_after (fun s e s' h => ?_) threeTens (.nil emptyLog) hs
    split at h
    · next hspare => exact ⟨spare_of_spares hspare, step_of_next h⟩
    · cases h
  exact ⟨s, hrun, hn, (space_ok start_emptyLog hrun).1⟩

/-- And then the first of them logs its first block again. -/
def fullAgain : List Event := threeTens ++ [.bread 1 100, .logWrite 1 100]

set_option maxRecDepth 100000 in
/-- **A full log and a block that is in it already**: three operations keep to ten blocks each, and
`log_write` panics. -/
theorem space_full : ∃ s, Run Step emptyLog fullAgain s ∧ s.panicked = some .tooBig ∧
    ¬ SpaceOk s := by
  have hsome : ((Run.after Sys.next fullAgain emptyLog).map Sys.panicked) =
    some (some .tooBig) := by
    decide +kernel
  obtain ⟨s, hs, hpanic⟩ := Option.map_eq_some_iff.mp hsome
  have hrun : Run.Meets Step (fun _ _ => True) emptyLog ([] ++ fullAgain) s :=
    Run.meets_of_after (fun s e s' h => ⟨trivial, (step_of_next h : Step s e s')⟩) fullAgain
      (.nil emptyLog) hs
  refine ⟨s, hrun.run, hpanic, fun hok => ?_⟩
  have := hok.panics _ hpanic
  cases this

end Xv6.Log
