import OsnMp2.Kernel.Memory
import OsnMp2.Lib.RingBuffer
import OsnMp2.Lib.Runs

/-!
# Pipes as byte streams

`pipewrite` and `piperead`, called by any number of processes on one pipe. A call holds the lock of
the pipe except while it sleeps; it moves one byte per round of its loop, to or from the memory of
its process, and the copy may fail. What the writers have copied into the pipe is compared with what
the readers have copied out of it.

`piperead` counts a byte as read before it copies it out. When the copy fails, the byte is gone.

## Main definitions

* `Pipe`, `Call`, `Sys`: the pipe, a call in progress, and all of them
* `pipewrite`, `piperead`: one round of a call that holds the lock
* `Step`: what may happen next
* `Stream`: the bytes written are those delivered and those in the buffer
* `Delivers`: no copy of `piperead` fails

## Main results

* `stream_iff`: the stream is kept, up to the first copy of `piperead` that fails
* `stream_lost`: a byte that is read to a bad address
-/

namespace Xv6.Pipes

/-- `PIPESIZE`. -/
abbrev pipeSize : Nat := 512

/-- `struct pipe`, without its lock. -/
structure Pipe where
  data : Nat → UInt8
  nread : Nat := 0
  nwrite : Nat := 0
  readopen : Bool := true
  writeopen : Bool := true

/-- Where a call is: it waits for the lock, at its start or after `sleep`; it holds the lock and is
in its first loop or in the copying loop of `piperead`; it sleeps; or it has returned. -/
inductive Place
  | acquire
  | loop
  | copy
  | asleep
  | returned (r : Int)
deriving DecidableEq

/-- A call of `pipewrite` or `piperead`, with its arguments and its `i`. -/
structure Call where
  writing : Bool
  addr : Nat
  n : Int
  i : Nat := 0
  place : Place := .acquire

/-- A pipe and the processes that use it: the process that holds the lock, the calls, the
processes that have been killed and their memory. `written` and `delivered` record the
bytes copied in and out. -/
structure Sys where
  pipe : Pipe
  lock : Option Nat := none
  calls : Nat → Option Call := fun _ => none
  killed : Nat → Bool := fun _ => false
  user : Nat → Nat → UInt8 := fun _ _ => 0
  freed : Bool := false
  written : List UInt8 := []
  delivered : List UInt8 := []

variable {s s' : Sys} {p : Nat} {c : Call} {copied : Bool}

/-! ## The functions -/

/-- The call of a process goes on. -/
def Sys.put (s : Sys) (p : Nat) (c : Call) :
    Sys := { s with calls := Function.update s.calls p (some c) }

/-- `wakeup` of the writers, at `&pi->nwrite`, or of the readers, at `&pi->nread`. -/
def Sys.wakeup (s : Sys) (writers : Bool) : Sys :=
  { s with calls := fun p => (s.calls p).map fun c =>
      if c.place = .asleep ∧ c.writing = writers then { c with place := .acquire } else c }

/-- Release the lock and return. -/
def Sys.ret (s : Sys) (p : Nat) (c : Call) (r : Int) : Sys :=
  { s.put p { c with place := .returned r } with lock := none }

/-- `sleep`, which releases the lock. -/
def Sys.sleep (s : Sys) (p : Nat) (c : Call) : Sys :=
  { s.put p { c with place := .asleep } with lock := none }

/-- A round of the loop of `pipewrite`; `copied` is whether `copyin` succeeds. -/
def pipewrite (s : Sys) (p : Nat) (c : Call) (copied : Bool) : Sys :=
  if c.i < c.n then
    -- Bytes that were put into the buffer before are not reported, and stay in it.
    if s.pipe.readopen = false ∨ s.killed p = true then s.ret p c (-1)
    -- The counters run over at 2^32, which is a multiple of `PIPESIZE`.
    else if s.pipe.nwrite = u32 (s.pipe.nread + pipeSize) then (s.wakeup false).sleep p c
    else if copied then
      let ch := s.user p (u64 (c.addr + c.i))
      { s.put p { c with i := c.i + 1 } with
        pipe := { s.pipe with
          data := Function.update s.pipe.data (s.pipe.nwrite % pipeSize) ch
          nwrite := u32 (s.pipe.nwrite + 1) }
        written := s.written ++ [ch] }
    else (s.wakeup false).ret p c c.i
  else (s.wakeup false).ret p c c.i

/-- A round of one of the loops of `piperead`; `copied` is whether `copyout` succeeds. -/
def piperead (s : Sys) (p : Nat) (c : Call) (copied : Bool) : Sys :=
  if c.place = .loop then
    if s.pipe.nread = s.pipe.nwrite ∧ s.pipe.writeopen = true then
      if s.killed p = true then s.ret p c (-1) else s.sleep p c
    -- Something to read, or no writer left: the copying loop does not sleep.
    else s.put p { c with place := .copy }
  else if c.i < c.n ∧ s.pipe.nread ≠ s.pipe.nwrite then
    let ch := s.pipe.data (s.pipe.nread % pipeSize)
    -- The byte is out of the buffer before it is copied.
    let s := { s with pipe := { s.pipe with nread := u32 (s.pipe.nread + 1) } }
    if copied then
      { s.put p { c with i := c.i + 1 } with
        user := Function.update s.user p (Function.update (s.user p) (u64 (c.addr + c.i)) ch)
        delivered := s.delivered ++ [ch] }
    else (s.wakeup true).ret p c c.i
  else (s.wakeup true).ret p c c.i

/-- `pipeclose`. -/
def pipeclose (s : Sys) (writable : Bool) : Sys :=
  let pipe :=
    if writable then { s.pipe with writeopen := false } else { s.pipe with readopen := false }
  let s := { s with pipe }.wakeup (!writable)
  -- The last end to close frees the page.
  { s with freed := !pipe.readopen && !pipe.writeopen }

/-! ## The system -/

/-- What may happen. -/
inductive Event
  /-- a process calls `pipewrite` or `piperead` -/
  | call (p : Nat) (writing : Bool) (addr : Nat) (n : Int)
  /-- a call gets the lock -/
  | acquire (p : Nat)
  /-- the call that holds the lock makes a round of its loop -/
  | round (p : Nat) (copied : Bool)
  /-- `kkill` -/
  | kill (p : Nat)
  /-- the last file of an end is closed -/
  | close (writable : Bool)
  /-- a process that is in no call changes its memory -/
  | store (p a : Nat) (v : UInt8)

/-- The process is in no call. -/
def Sys.Outside (s : Sys) (p : Nat) : Prop := ∀ c, s.calls p = some c → ∃ r, c.place = .returned r

/-- `kkill`: the process is marked, and wakes up when it sleeps. -/
def Sys.kill (s : Sys) (p : Nat) : Sys :=
  { s with
    killed := Function.update s.killed p true
    calls := Function.update s.calls p ((s.calls p).map fun c =>
      if c.place = .asleep then { c with place := .acquire } else c) }

/-- **A step**. -/
inductive Step : Sys → Event → Sys → Prop
  | call {s : Sys} {p : Nat} {writing : Bool} {addr : Nat} {n : Int} (alive : s.freed = false)
      (outside : s.Outside p) : Step s (.call p writing addr n) (s.put p { writing, addr, n })
  | acquire {s : Sys} {p : Nat} {c : Call} (alive : s.freed = false) (free : s.lock = none)
      (waits : s.calls p = some c) (place : c.place = .acquire) :
      Step s (.acquire p) { s.put p { c with place := .loop } with lock := some p }
  | write {s : Sys} {p : Nat} {c : Call} {copied : Bool} (holds : s.lock = some p)
      (runs : s.calls p = some c) (writing : c.writing = true) :
      Step s (.round p copied) (pipewrite s p c copied)
  | read {s : Sys} {p : Nat} {c : Call} {copied : Bool} (holds : s.lock = some p)
      (runs : s.calls p = some c) (reading : c.writing = false) :
      Step s (.round p copied) (piperead s p c copied)
  | kill (s : Sys) (p : Nat) : Step s (.kill p) (s.kill p)
  | close {s : Sys} {writable : Bool} (alive : s.freed = false) (free : s.lock = none) :
      Step s (.close writable) (pipeclose s writable)
  | store {s : Sys} {p a : Nat} {v : UInt8} (outside : s.Outside p) :
      Step s (.store p a v) { s with user := Function.update s.user p (Function.update
        (s.user p) a v) }

/-- The state after `pipealloc`. -/
structure Start (s : Sys) : Prop where
  nread : s.pipe.nread = 0
  nwrite : s.pipe.nwrite = 0
  readopen : s.pipe.readopen = true
  writeopen : s.pipe.writeopen = true
  lock : s.lock = none
  calls : ∀ p, s.calls p = none
  freed : s.freed = false
  written : s.written = []
  delivered : s.delivered = []

/-! ## The stream -/

/-- The `nwrite - nread` bytes in the buffer. -/
def Pipe.buffered (pi : Pipe) :
    List UInt8 := ringContents pipeSize (2 ^ 32) pi.data pi.nread pi.nwrite

/-- **The pipe is a byte stream**: what was written is what was delivered, and what is in the
buffer. -/
def Stream (s : Sys) : Prop := s.written = s.delivered ++ s.pipe.buffered

/-- The pipe's buffer holds the bytes `l`. -/
def Pipe.Holds (pi : Pipe) (l : List UInt8) :
    Prop := RingHolds pipeSize (2 ^ 32) pi.data pi.nread pi.nwrite l

/-- The bytes written are the bytes `sent` and those in the buffer, which is in order. -/
def StreamInv (s : Sys) : Prop := ∃ l, s.pipe.Holds l ∧ s.written = s.delivered ++ l

/-- **The copy does not fail**, when `piperead` has taken a byte out of the buffer for it. -/
def Delivers (s : Sys) : Event → Prop
  | .round p copied => ∀ c, s.calls p = some c → c.writing = false → c.place ≠ .loop → c.i < c.n →
      s.pipe.nread ≠ s.pipe.nwrite → copied = true
  | _ => True

theorem StreamInv.stream (h : StreamInv s) : Stream s := by
  obtain ⟨l, hl, hw⟩ := h
  rw [Stream, Pipe.buffered, hl.eq_contents (by decide)]
  exact hw

/-- What a step leaves alone. -/
theorem StreamInv.congr (h : StreamInv s) (hpipe : s'.pipe.Holds = s.pipe.Holds)
    (hw : s'.written = s.written) (hd : s'.delivered = s.delivered) : StreamInv s' := by
  obtain ⟨l, hl, hs⟩ := h
  exact ⟨l, hpipe ▸ hl, by rw [hw, hd, hs]⟩

/-- **`pipewrite`** keeps the stream: the byte it copies in is put into the buffer. -/
theorem StreamInv.pipewrite (h : StreamInv s) : StreamInv (pipewrite s p c copied) := by
  unfold Pipes.pipewrite
  split
  swap
  · exact h.congr rfl rfl rfl
  split
  · exact h.congr rfl rfl rfl
  split
  · exact h.congr rfl rfl rfl
  next hfull =>
  split
  swap
  · exact h.congr rfl rfl rfl
  -- the buffer has room for the byte
  obtain ⟨l, hl, hs⟩ := h
  have hroom : l.length < pipeSize := by
    refine Nat.lt_of_le_of_ne hl.length fun heq => hfull ?_
    exact (hl.full_iff (by decide)).mpr heq
  refine ⟨l ++ [s.user p (u64 (c.addr + c.i))], hl.push (by decide) hroom _, ?_⟩
  show s.written ++ _ = s.delivered ++ _
  rw [hs, List.append_assoc]

/-- The buffer has a byte when the counters differ. -/
theorem Pipe.Holds.exists_cons {pi : Pipe} {l : List UInt8} (h : pi.Holds l)
    (hne : pi.nread ≠ pi.nwrite) :
    ∃ l', l = pi.data (pi.nread % pipeSize) :: l' ∧
    { pi with nread := u32 (pi.nread + 1) }.Holds l' := by
  cases l with
  | nil => exact absurd ((RingHolds.empty_iff h (by decide)).mpr rfl) hne
  | cons ch l' =>
    obtain ⟨hch, hl'⟩ := RingHolds.pop h (by decide)
    exact ⟨l', by rw [hch], hl'⟩

/-- **`piperead`** keeps the stream, when the copy does not fail. -/
theorem StreamInv.piperead (h : StreamInv s) (hcopied : c.place ≠ .loop → c.i < c.n →
    s.pipe.nread ≠ s.pipe.nwrite → copied = true) : StreamInv (piperead s p c copied) := by
  unfold Pipes.piperead
  split
  · split
    · split
      · exact h.congr rfl rfl rfl
      · exact h.congr rfl rfl rfl
    · exact h.congr rfl rfl rfl
  next hplace =>
  split
  swap
  · exact h.congr rfl rfl rfl
  next hne =>
  rw [hcopied hplace hne.1 hne.2, if_pos rfl]
  obtain ⟨l, hl, hs⟩ := h
  obtain ⟨l', rfl, hl'⟩ := hl.exists_cons hne.2
  refine ⟨l', hl', ?_⟩
  show s.written = s.delivered ++ _ ++ l'
  rw [hs, List.append_assoc]
  rfl

/-- **A copy that fails** loses the byte: the stream is one byte too short. -/
theorem StreamInv.lost (h : StreamInv s) (hplace : c.place ≠ .loop) (hi : c.i < c.n)
    (hne : s.pipe.nread ≠ s.pipe.nwrite) : ¬ Stream (Pipes.piperead s p c false) := by
  obtain ⟨l, hl, hs⟩ := h
  obtain ⟨l', rfl, hl'⟩ := hl.exists_cons hne
  unfold Pipes.piperead
  rw [if_neg hplace, if_pos ⟨hi, hne⟩]
  have hbuf : ({ s.pipe with nread := u32 (s.pipe.nread + 1) } : Pipe).buffered = l' :=
    RingHolds.eq_contents hl' (by decide)
  show s.written ≠ s.delivered ++ ({ s.pipe with nread := u32 (s.pipe.nread + 1) } : Pipe).buffered
  rw [hs, hbuf]
  intro heq
  have := List.append_cancel_left heq
  exact absurd (congrArg List.length this) (by simp)

/-- **A step keeps the stream** exactly if no copy of `piperead` fails. -/
theorem StreamInv.step {e : Event} (h : StreamInv s) (hstep : Step s e s') :
    (Delivers s e → StreamInv s') ∧ (¬ Delivers s e → ¬ Stream s') := by
  cases hstep with
  | call | acquire | kill | store => exact ⟨fun _ => h.congr rfl rfl rfl,
      fun hc => absurd trivial hc⟩
  | close =>
    rename_i writable _ _
    refine ⟨fun _ => h.congr ?_ rfl rfl, fun hc => absurd trivial hc⟩
    cases writable <;> rfl
  | write holds runs writing =>
    refine ⟨fun _ => h.pipewrite, fun hnot => absurd (fun c' hc' hwf => ?_) hnot⟩
    rw [runs] at hc'
    cases hc'
    rw [writing] at hwf
    cases hwf
  | read holds runs reading =>
    refine ⟨fun hd => h.piperead (hd _ runs reading), fun hnot => ?_⟩
    unfold Delivers at hnot
    push Not at hnot
    obtain ⟨c', hc', -, hplace, hi, hne, hcopied⟩ := hnot
    rw [runs] at hc'
    cases hc'
    rw [Bool.eq_false_iff.mpr hcopied]
    exact h.lost hplace hi hne

theorem Start.inv (h : Start s) : StreamInv s := by
  refine ⟨[], ?_, by rw [h.written, h.delivered]; rfl⟩
  unfold Pipe.Holds
  rw [h.nread, h.nwrite]
  exact RingHolds.nil (by decide) _

/-! ## Computed runs -/

/-- Whether a call has returned. -/
def Place.isReturned : Place → Bool
  | .returned _ => true
  | _ => false

/-- The state after an event, when it can happen. -/
def Sys.next (s : Sys) : Event → Option Sys
  | .call p writing addr n =>
    if s.freed = false ∧ (s.calls p).all (fun c => c.place.isReturned) = true then
      some (s.put p { writing, addr, n })
    else none
  | .acquire p => (s.calls p).bind fun c =>
    if s.freed = false ∧ s.lock = none ∧ c.place = .acquire then
      some { s.put p { c with place := .loop } with lock := some p }
    else none
  | .round p copied => (s.calls p).bind fun c =>
    if s.lock = some p then some (if c.writing then pipewrite s p c copied
      else piperead s p c copied)
    else none
  | .kill p => some (s.kill p)
  | .close writable => if s.freed = false ∧ s.lock = none then some (pipeclose s writable) else none
  | .store p a v =>
    if (s.calls p).all (fun c => c.place.isReturned) = true then
      some { s with user := Function.update s.user p (Function.update (s.user p) a v) }
    else none

theorem outside_of_all (h : (s.calls p).all (fun c => c.place.isReturned) = true) :
    s.Outside p := by
  intro c hc
  rw [hc] at h
  have hr : c.place.isReturned = true := h
  unfold Place.isReturned at hr
  split at hr
  · next r hplace => exact ⟨r, hplace⟩
  · cases hr

theorem step_of_next {e : Event} (h : s.next e = some s') : Step s e s' := by
  cases e with
  | call p writing addr n =>
    obtain ⟨⟨halive, houtside⟩, heq⟩ := Option.ite_none_right_eq_some.mp h
    cases heq
    exact .call halive (outside_of_all houtside)
  | acquire p =>
    obtain ⟨c, hc, h⟩ := Option.bind_eq_some_iff.mp h
    obtain ⟨⟨halive, hfree, hplace⟩, heq⟩ := Option.ite_none_right_eq_some.mp h
    cases heq
    exact .acquire halive hfree hc hplace
  | round p copied =>
    obtain ⟨c, hc, h⟩ := Option.bind_eq_some_iff.mp h
    obtain ⟨hholds, heq⟩ := Option.ite_none_right_eq_some.mp h
    obtain rfl := Option.some.inj heq
    cases hw : c.writing with
    | true =>
      rw [if_pos rfl]
      exact .write hholds hc hw
    | false =>
      rw [if_neg Bool.false_ne_true]
      exact .read hholds hc hw
  | kill p =>
    cases h
    exact .kill s p
  | close writable =>
    obtain ⟨⟨halive, hfree⟩, heq⟩ := Option.ite_none_right_eq_some.mp h
    cases heq
    exact .close halive hfree
  | store p a v =>
    obtain ⟨houtside, heq⟩ := Option.ite_none_right_eq_some.mp h
    cases heq
    exact .store (outside_of_all houtside)

/-- A check of the condition: the copies of `piperead` are among those of the readers. -/
def Sys.delivers (s : Sys) : Event → Bool
  | .round p copied => copied || (s.calls p).all fun c => c.writing
  | _ => true

theorem delivers_of_check {e : Event} (h : s.delivers e = true) : Delivers s e := by
  cases e with
  | call | acquire | kill | close | store => exact trivial
  | round p copied =>
    intro c hc hw _ _ _
    rw [Sys.delivers, hc, Option.all_some, hw, Bool.or_false] at h
    exact h

/-- A pipe after `pipealloc`; process 1 has the letters of "pipe" at address 16. -/
def freshPipe : Sys where
  pipe := { data := fun _ => 5 }
  user p a := if p = 1 then ([112, 105, 112, 101] : List UInt8).getD (a - 16) 0 else 0

theorem start_freshPipe : Start freshPipe :=
  ⟨rfl, rfl, rfl, rfl, rfl, fun _ => rfl, rfl, rfl, rfl⟩

/-- **A pipe is a byte stream up to the first copy of `piperead` that fails**: the bytes written are
those delivered and those in the buffer in every state of a run in which no such copy fails, and a
step that is such a copy breaks this. -/
theorem stream_iff {s₀ : Sys} {es : List Event} (hs : Start s₀)
    (hrun : Run.Meets Step Delivers s₀ es s) :
    Stream s ∧ ∀ e s', Step s e s' → (Stream s' ↔ Delivers s e) := by
  have hinv : StreamInv s :=
    Run.invariant_of_meets (fun s e s' h hd (hstep : Step s e s') => (StreamInv.step h hstep).1 hd)
      hrun hs.inv
  refine ⟨hinv.stream, fun e s' hstep => ⟨fun hstream => ?_,
    fun hd => ((hinv.step hstep).1 hd).stream⟩⟩
  by_contra hd
  exact (hinv.step hstep).2 hd hstream

/-- The reader sleeps on the empty pipe; the writer writes four bytes and fails to copy the
fifth. -/
def sharePipe : List Event :=
  [.call 2 false 0 3, .acquire 2, .round 2 true, .call 1 true 16 5, .acquire 1, .round 1 true,
    .round 1 true, .round 1 true, .round 1 true, .round 1 false, .acquire 2, .round 2 true]

/-- Then it takes three of the bytes. -/
def readThree : List Event := sharePipe ++ [.round 2 true, .round 2 true, .round 2 true]

set_option maxRecDepth 10000 in
/-- Three bytes are delivered, and the fourth one is in the buffer. -/
theorem stream_iff_shared : ∃ s, Run.Meets Step Delivers freshPipe readThree s ∧
    s.written = [112, 105, 112, 101] ∧ s.delivered = [112, 105, 112] ∧ s.pipe.buffered = [101] ∧
    Stream s := by
  have hsome : ((Run.after (fun s e => if s.delivers e then s.next e else none) readThree
    freshPipe).map
      fun s => (s.written, s.delivered, s.pipe.buffered)) =
        some ([112, 105, 112, 101], [112, 105, 112], [101]) := by
    decide +kernel
  obtain ⟨s, hs, heq⟩ := Option.map_eq_some_iff.mp hsome
  simp only [Prod.mk.injEq] at heq
  have hrun : Run.Meets Step Delivers freshPipe ([] ++ readThree) s := by
    refine Run.meets_of_after (fun s e s' h => ?_) readThree (.nil freshPipe) hs
    obtain ⟨hd, hnext⟩ := Option.ite_none_right_eq_some.mp h
    exact ⟨delivers_of_check hd, step_of_next hnext⟩
  exact ⟨s, hrun, heq.1, heq.2.1, heq.2.2, (stream_iff start_freshPipe hrun).1⟩

/-- Or it reads to an address that it does not have, and then to one that it has. -/
def readTwice : List Event :=
  sharePipe ++ [.round 2 false, .call 2 false 0 3, .acquire 2, .round 2 true, .round 2 true,
    .round 2 true, .round 2 true]

set_option maxRecDepth 10000 in
/-- **A byte is lost**: the first of the four bytes is neither delivered nor in the buffer. -/
theorem stream_lost : ∃ s, Run Step freshPipe readTwice s ∧ s.written = [112, 105, 112, 101] ∧
    s.delivered = [105, 112, 101] ∧ s.pipe.buffered = [] ∧ ¬ Stream s := by
  have hsome : ((Run.after Sys.next readTwice freshPipe).map
      fun s => (s.written, s.delivered, s.pipe.buffered)) =
        some ([112, 105, 112, 101], [105, 112, 101], []) := by
    decide +kernel
  obtain ⟨s, hs, heq⟩ := Option.map_eq_some_iff.mp hsome
  simp only [Prod.mk.injEq] at heq
  have hrun : Run.Meets Step (fun _ _ => True) freshPipe ([] ++ readTwice) s :=
    Run.meets_of_after (fun s e s' h => ⟨trivial, (step_of_next h : Step s e s')⟩) readTwice
      (.nil freshPipe) hs
  refine ⟨s, hrun.run, heq.1, heq.2.1, heq.2.2, ?_⟩
  unfold Stream
  rw [heq.1, heq.2.1, heq.2.2]
  decide

end Xv6.Pipes
