import OsnMp2.Kernel.Memory
import OsnMp2.Lib.RingBuffer
import OsnMp2.Lib.Runs
import Mathlib.Tactic.Common

/-!
# The console's line discipline

`consoleintr` and `consoleread` of `console.c`, with any number of reading processes. The
interrupt handler puts the keys into a ring with three counters: what is before `r` has been
read, what is before `w` may be read, and what is before `e` can still be edited. A reader
holds `cons.lock` except while it sleeps, and takes one character in each round of its loop; a
copy to its memory may fail.

`echo` records what `consoleintr` sends to the screen: the keys, and the process lists that
control-p prints. `taken` records the characters that the readers have taken out. A control-d that
is left for the next reader has not been taken out.

## Main definitions

* `Cons`, `Call`, `Sys`: the ring, a call of `consoleread`, and all of them
* `procdump`: the process list
* `consoleintr`, `consoleread`: a key, and a round of a call
* `next`: what happens at an event
* `display`: what is on the screen, when a backspace erases
* `typed`: the part of the echo that is not a process list
* `Sound`: what holds of the console

## Main results

* `console_sound`: it holds in every state of every run
-/

namespace Xv6.Console

/-- `INPUT_BUF_SIZE`. -/
abbrev inputBufSize : Nat := 128

/-- `BACKSPACE`. -/
def backspace : Nat := 0x100

/-- `'\n'`. -/
def newline : UInt8 := 10

/-- `'\r'`. -/
def ret : UInt8 := 13

/-- The delete key. -/
def del : UInt8 := 0x7f

/-- `C('D')`. -/
def ctrlD : UInt8 := 4

/-- `C('H')`. -/
def ctrlH : UInt8 := 8

/-- `C('P')`. -/
def ctrlP : UInt8 := 16

/-- `C('U')`. -/
def ctrlU : UInt8 := 21

/-- `cons`, without its lock. -/
structure Cons where
  buf : Nat → UInt8
  r : Nat := 0
  w : Nat := 0
  e : Nat := 0

/-- Why a call has returned: it was asked for no more, or a line ended, or control-d was met, or a
copy failed, or the process was killed. -/
inductive Why
  | full
  | line
  | eof
  | fault
  | killed
deriving DecidableEq

/-- Where a call is: it waits for the lock, holds it, sleeps, or has returned. -/
inductive Place
  | acquire
  | loop
  | asleep
  | returned (r : Int) (why : Why)
deriving DecidableEq

/-- A call `consoleread(user_dst, dst, n)`, and what it has copied to `dst`. -/
structure Call where
  n : Int
  got : List UInt8 := []
  place : Place := .acquire

/-- What is sent to the screen: for a key, or as a part of a process list. -/
inductive Shown
  | key (c : Nat)
  | list (c : UInt8)
deriving DecidableEq

/-- The argument of `consputc`. -/
def Shown.code : Shown → Nat
  | key c => c
  | list c => c.toNat

/-- The console and the processes that read from it. -/
structure Sys where
  cons : Cons
  lock : Option Nat := none
  calls : Nat → Option Call := fun _ => none
  killed : Nat → Bool := fun _ => false
  echo : List Shown := []
  taken : List UInt8 := []

/-! ## The functions -/

/-- The call of a process goes on. -/
def Sys.put (s : Sys) (p : Nat) (c : Call) :
    Sys := { s with calls := Function.update s.calls p (some c) }

@[simp] theorem Sys.calls_put_self (s : Sys) (p : Nat) (c : Call) : (s.put p c).calls p = some c :=
  Function.update_self ..

@[simp] theorem Sys.calls_put_of_ne {s : Sys} {p q : Nat} {c : Call} (h : q ≠ p) :
    (s.put p c).calls q = s.calls q :=
  Function.update_of_ne h ..

/-- `wakeup(&cons.r)`. -/
def Sys.wakeup (s : Sys) : Sys :=
  { s with calls := fun p => (s.calls p).map fun c => if c.place = .asleep then
    { c with place := .acquire } else c }

/-- Release the lock and return. -/
def Sys.finish (s : Sys) (p : Nat) (c : Call) (r : Int) (why : Why) : Sys :=
  { s.put p { c with place := .returned r why } with lock := none }

/-- `sleep(&cons.r, &cons.lock)`, which releases the lock. -/
def Sys.sleep (s : Sys) (p : Nat) (c : Call) :
    Sys := { s.put p { c with place := .asleep } with lock := none }

/-- `cons.r++`, and the character is taken out. -/
def Sys.take (s : Sys) : Sys :=
  { s with
    cons := { s.cons with r := u32 (s.cons.r + 1) }
    taken := s.taken ++ [s.cons.buf (s.cons.r % inputBufSize)] }

/-- `cons.r--`, after `cons.r++`. -/
def Sys.leave (s : Sys) : Sys :=
  { s with cons := { s.cons with r := u32 (2 ^ 32 - 1 + u32 (s.cons.r + 1)) } }

/-- A round of the loop of `consoleread`; `copied` is whether `either_copyout` succeeds. -/
def consoleread (s : Sys) (p : Nat) (c : Call) (copied : Bool) : Sys :=
  if c.got.length < c.n then
    if s.cons.r = s.cons.w then
      -- Tested only when there is nothing to read.
      if s.killed p then s.finish p c (-1) .killed else s.sleep p c
    else
      let ch := s.cons.buf (s.cons.r % inputBufSize)
      if ch = ctrlD then
        -- `n < target`
        if c.n - c.got.length < c.n then s.leave.finish p c c.got.length .eof
        else s.take.finish p c c.got.length .eof
      else if copied then
        let c := { c with got := c.got ++ [ch] }
        if ch = newline then s.take.finish p c c.got.length .line else s.take.put p c
      -- The character that could not be copied is gone: `cons.r` has been raised.
      else s.take.finish p c c.got.length .fault
  else s.finish p c c.got.length .full

/-- `cons.e--; consputc(BACKSPACE)`. -/
def Sys.erase (s : Sys) : Sys :=
  { s with
    cons := { s.cons with e := u32 (2 ^ 32 - 1 + s.cons.e) }
    -- Not put into `cons.buf`, so the character that is erased stays there behind `cons.e`.
    echo := s.echo ++ [.key backspace] }

/-- The loop that kills a line, for at most `n` rounds. -/
def eraseLine : Nat → Sys → Sys
  | 0, s => s
  | n + 1, s =>
    if s.cons.e ≠ s.cons.w ∧ s.cons.buf (u32 (2 ^ 32 - 1 + s.cons.e) % inputBufSize) ≠ newline then
      eraseLine n s.erase
    else s

/-- The character is echoed and stored. -/
def Sys.store (s : Sys) (c : UInt8) : Sys :=
  { s with
    cons := {
      s.cons with
      buf := Function.update s.cons.buf (s.cons.e % inputBufSize) c
      e := u32 (s.cons.e + 1) }
    -- `consputc` comes before the store, under the same lock.
    echo := s.echo ++ [.key c.toNat] }

/-- `cons.w = cons.e; wakeup(&cons.r)`. -/
def Sys.commit (s : Sys) : Sys := { s with cons := { s.cons with w := s.cons.e } }.wakeup

/-- `enum procstate`. -/
inductive ProcState
  | unused | used | sleeping | runnable | running | zombie
deriving DecidableEq

/-- What `procdump` reads of a process; the name is a string. -/
structure Listed where
  pid : Int32
  state : ProcState
  name : List UInt8

/-- The entries of `states`. -/
def ProcState.text : ProcState → String
  | unused => "unused"
  | used => "used"
  | sleeping => "sleep "
  | runnable => "runble"
  | running => "run   "
  | zombie => "zombie"

/-- The bytes of a text. -/
def bytes (text : String) : List UInt8 := text.toList.map fun c => c.toNat.toUInt8

/-- `printint(x, 10, 1)`. -/
def printint (x : Int32) : List UInt8 := bytes (toString x.toInt)

/-- `printf("%d %s %s", p->pid, state, p->name)`, and the end of the line. -/
def Listed.line (p : Listed) : List UInt8 :=
  printint p.pid ++ bytes " " ++ bytes p.state.text ++ bytes " " ++ p.name ++ [newline]

/-- `procdump()` prints the processes of the table. -/
def procdump (procs : List Listed) : List UInt8 :=
  [newline] ++ (procs.filter fun p => p.state ≠ .unused).flatMap Listed.line

/-- The process list goes to the screen. -/
def Sys.dump (s : Sys) (procs : List Listed) : Sys :=
  { s with echo := s.echo ++ (procdump procs).map .list }

/-- `consoleintr(c)`, when the table of the processes is `procs`. -/
def consoleintr (s : Sys) (procs : List Listed) (c : UInt8) : Sys :=
  if c = ctrlP then s.dump procs
  else if c = ctrlU then
    -- there are `e - w` characters to erase
    eraseLine (u32 (s.cons.e + (2 ^ 32 - s.cons.w))) s
  else if c = ctrlH ∨ c = del then
    if s.cons.e ≠ s.cons.w then s.erase else s
  -- A full buffer drops the key, and does not echo it.
  else if c ≠ 0 ∧ u32 (s.cons.e + (2 ^ 32 - s.cons.r)) < inputBufSize then
    let c := if c = ret then newline else c
    -- From here on `cons.e` has gone up.
    let s := s.store c
    if c = newline ∨ c = ctrlD ∨ u32 (s.cons.e + (2 ^ 32 - s.cons.r)) = inputBufSize then s.commit
      else s
  else s

/-! ## The system -/

/-- What may happen. -/
inductive Event
  /-- a process calls `consoleread` -/
  | call (p : Nat) (n : Int)
  /-- a call gets the lock -/
  | acquire (p : Nat)
  /-- the call that holds the lock makes a round of its loop -/
  | round (p : Nat) (copied : Bool)
  /-- a key, and the processes that there are -/
  | key (c : UInt8) (procs : List Listed)
  /-- `kkill` -/
  | kill (p : Nat)

/-- The call has returned. -/
def Place.isReturned : Place → Bool
  | .returned _ _ => true
  | _ => false

/-- `kkill`: the process is marked, and wakes up when it sleeps. -/
def Sys.kill (s : Sys) (p : Nat) : Sys :=
  { s with
    killed := Function.update s.killed p true
    calls := Function.update s.calls p ((s.calls p).map fun c =>
      if c.place = .asleep then { c with place := .acquire } else c) }

/-- The state after an event that can happen. -/
def next (s : Sys) : Event → Option Sys
  | .call p n => if (s.calls p).all (fun c => c.place.isReturned) = true then some (s.put p { n })
      else none
  | .acquire p => (s.calls p).bind fun c =>
    if s.lock = none ∧ c.place = .acquire then
      some { s.put p { c with place := .loop } with lock := some p } else none
  | .round p copied => (s.calls p).bind fun c =>
    if s.lock = some p ∧ c.place = .loop then some (consoleread s p c copied) else none
  | .key c procs => if s.lock = none then some (consoleintr s procs c) else none
  | .kill p => some (s.kill p)

def Step (s : Sys) (e : Event) (s' : Sys) : Prop := next s e = some s'

/-- The state after `consoleinit`. -/
structure Boot (s : Sys) : Prop where
  r : s.cons.r = 0
  w : s.cons.w = 0
  e : s.cons.e = 0
  lock : s.lock = none
  calls : ∀ p, s.calls p = none
  echo : s.echo = []
  taken : s.taken = []

/-! ## What holds -/

/-- What is on the screen. -/
def display (echo : List Nat) : List Nat :=
  echo.foldl (fun shown c => if c = backspace then shown.dropLast else shown ++ [c]) []

/-- What has been sent to the screen for keys. -/
def typed (echo : List Shown) : List Nat :=
  echo.filterMap fun
    | .key c => some c
    | .list _ => none

/-- What may be read. -/
def Cons.unread (k : Cons) : List UInt8 := ringContents inputBufSize (2 ^ 32) k.buf k.r k.w

/-- What can still be edited. -/
def Cons.editing (k : Cons) : List UInt8 := ringContents inputBufSize (2 ^ 32) k.buf k.w k.e

/-- What a call that has returned has copied. -/
def Place.Ok : Place → Int → List UInt8 → Prop
  | .returned r .line, _, got => r = got.length ∧ ∃ l, got = l ++ [newline] ∧ newline ∉ l
  | .returned r .full, n, got => r = got.length ∧ n ≤ got.length ∧ newline ∉ got
  | .returned r .killed, _, got => r = -1 ∧ newline ∉ got
  | .returned r _, _, got => r = got.length ∧ newline ∉ got
  | _, _, got => newline ∉ got

/-- **A call reads at most one line**: no control-d, a newline only at its end, and no
more than it asked for. -/
structure Call.Ok (s : Sys) (c : Call) : Prop where
  place : c.place.Ok c.n c.got
  eof : ctrlD ∉ c.got
  length : c.got = [] ∨ c.got.length ≤ c.n
  taken : c.got.Sublist s.taken

/-- **What holds of the console.** -/
structure Sound (s : Sys) : Prop where
  /-- what the keys have put on the screen is what has been taken out, what may be read and what is
  edited -/
  screen : display (typed s.echo) = (s.taken ++ (s.cons.unread ++ s.cons.editing)).map UInt8.toNat
  /-- there is no more on the screen, when there is no process list -/
  plain : (∀ c, Shown.list c ∉ s.echo) →
    display (s.echo.map Shown.code) = (s.taken ++ (s.cons.unread ++ s.cons.editing)).map UInt8.toNat
  /-- what can be edited is in one line -/
  edit : newline ∉ s.cons.editing ∧ ctrlD ∉ s.cons.editing
  /-- a full buffer can be read -/
  full : u32 (s.cons.e + (2 ^ 32 - s.cons.r)) = inputBufSize → s.cons.unread ≠ []
  /-- no reader sleeps when something may be read -/
  awake : ∀ p c, s.calls p = some c → c.place = .asleep → s.cons.unread = []
  calls : ∀ p c, s.calls p = some c → c.Ok s

section

variable {s s' : Sys} {unread editing : List UInt8} {p : Nat} {c : Call} {ch : UInt8}

/-- The invariant, for what may be read and what is edited. -/
structure Holds (s : Sys) (unread editing : List UInt8) : Prop where
  ring : RingHolds inputBufSize (2 ^ 32) s.cons.buf s.cons.r s.cons.e (unread ++ editing)
  w : s.cons.w = (s.cons.r + unread.length) % 2 ^ 32
  screen : display (typed s.echo) = (s.taken ++ (unread ++ editing)).map UInt8.toNat
  edit : newline ∉ editing ∧ ctrlD ∉ editing
  full : (unread ++ editing).length = inputBufSize → unread ≠ []
  awake : ∀ p c, s.calls p = some c → c.place = .asleep → unread = []
  calls : ∀ p c, s.calls p = some c → c.Ok s

/-! ## The ring -/

theorem Holds.parts (h : Holds s unread editing) :
    RingHolds inputBufSize (2 ^ 32) s.cons.buf s.cons.r s.cons.w unread ∧
      RingHolds inputBufSize (2 ^ 32) s.cons.buf s.cons.w s.cons.e editing := by
  have hsplit := h.ring.split (by decide)
  rw [← h.w] at hsplit
  exact hsplit

theorem Holds.unread_eq (h : Holds s unread editing) : s.cons.unread = unread :=
  h.parts.1.eq_contents (by decide)

theorem Holds.editing_eq (h : Holds s unread editing) : s.cons.editing = editing :=
  h.parts.2.eq_contents (by decide)

/-- The number of characters in the buffer. -/
theorem Holds.count (h : Holds s unread editing) :
    u32 (s.cons.e + (2 ^ 32 - s.cons.r)) = (unread ++ editing).length :=
  h.ring.length_eq (by decide)

/-- Without process lists, the keys have put everything on the screen. -/
theorem typed_eq {echo : List Shown} (h : ∀ c, Shown.list c ∉ echo) :
    typed echo = echo.map Shown.code := by
  induction echo with
  | nil => rfl
  | cons shown echo ih =>
    have hrest := ih fun c hc => h c (List.mem_cons_of_mem _ hc)
    cases shown with
    | key c => exact congrArg (c :: ·) hrest
    | list c => exact absurd List.mem_cons_self (h c)

theorem typed_append (echo echo' : List Shown) : typed (echo ++ echo') = typed echo ++
    typed echo' :=
  List.filterMap_append ..

theorem typed_list (text : List UInt8) : typed (text.map .list) = [] := by
  induction text with
  | nil => rfl
  | cons c text ih => exact ih

theorem Holds.sound (h : Holds s unread editing) : Sound s where
  screen := by rw [h.unread_eq, h.editing_eq, h.screen]
  plain hkeys := by rw [h.unread_eq, h.editing_eq, ← typed_eq hkeys, h.screen]
  edit := by rw [h.editing_eq]; exact h.edit
  full hfull := by
    rw [h.unread_eq]
    exact h.full (h.count.symm.trans hfull)
  awake p c hc hplace := by rw [h.unread_eq, h.awake p c hc hplace]
  calls := h.calls

/-! ## The calls -/

theorem Call.Ok.mono (h : c.Ok s) (ht : s.taken.Sublist s'.taken) : c.Ok s' :=
  ⟨h.place, h.eof, h.length, h.taken.trans ht⟩

/-- A call that has not returned. -/
theorem Call.Ok.goes_on (h : c.Ok s) {place : Place} (hc : c.place.isReturned = false)
    (hplace : place.isReturned = false) : ({ c with place } : Call).Ok s where
  place := by
    have hline : newline ∉ c.got := by
      have hok := h.place
      cases hp : c.place with
      | returned r why =>
        rw [hp] at hc
        cases hc
      | _ =>
        rw [hp] at hok
        exact hok
    cases place with
    | returned r why => cases hplace
    | _ => exact hline
  eof := h.eof
  length := h.length
  taken := h.taken

/-- Only the lock and what is recorded of the calls change. -/
theorem Holds.setCalls (h : Holds s unread editing) {calls : Nat → Option Call} (lock : Option Nat)
    (killed : Nat → Bool)
    (hcalls : ∀ p c, calls p = some c → c.Ok s ∧ (c.place = .asleep → unread = [])) :
    Holds { s with calls, lock, killed } unread editing where
  ring := h.ring
  w := h.w
  screen := h.screen
  edit := h.edit
  full := h.full
  awake p c hc := (hcalls p c hc).2
  calls p c hc := ⟨(hcalls p c hc).1.place, (hcalls p c hc).1.eof, (hcalls p c hc).1.length,
    (hcalls p c hc).1.taken⟩

theorem Holds.call (h : Holds s unread editing) (lock : Option Nat) (hok : c.Ok s)
    (hawake : c.place = .asleep → unread = []) : Holds { s.put p c with lock } unread editing := by
  refine h.setCalls lock s.killed fun q d hd => ?_
  by_cases hq : q = p
  · rw [hq, Sys.calls_put_self] at hd
    cases hd
    exact ⟨hok, hawake⟩
  · rw [Sys.calls_put_of_ne hq] at hd
    exact ⟨h.calls q d hd, h.awake q d hd⟩

/-- After `wakeup` nobody sleeps. -/
theorem calls_wakeup (h : ∀ p c, s.calls p = some c → c.Ok s') (hc : s.wakeup.calls p = some c) :
    c.Ok s' ∧ c.place ≠ .asleep := by
  obtain ⟨d, hd, rfl⟩ := Option.map_eq_some_iff.mp hc
  by_cases hplace : d.place = .asleep
  · rw [if_pos hplace]
    exact ⟨(h p d hd).goes_on (by rw [hplace]; rfl) rfl, nofun⟩
  · rw [if_neg hplace]
    exact ⟨h p d hd, hplace⟩

/-! ## Readers -/

/-- The first character is taken out. -/
theorem Holds.take (h : Holds s (ch :: unread) editing) :
    s.cons.buf (s.cons.r % inputBufSize) = ch ∧ Holds s.take unread editing := by
  obtain ⟨hch, hring⟩ := RingHolds.pop h.ring (by decide)
  have hlength := h.ring.length
  rw [List.cons_append, List.length_cons] at hlength
  refine ⟨hch, hring, ?_, ?_, h.edit, fun hfull => ?_, fun p c hc hplace => ?_, fun p c hc => ?_⟩
  · show s.cons.w = (u32 (s.cons.r + 1) + unread.length) % 2 ^ 32
    rw [h.w, u32, Nat.mod_add_mod, List.length_cons, Nat.add_assoc, Nat.add_comm 1]
  · show display (typed s.echo) = (s.taken ++ [_] ++ (unread ++ editing)).map UInt8.toNat
    rw [h.screen, hch, List.append_assoc]
    rfl
  · omega
  · cases h.awake p c hc hplace
  · exact (h.calls p c hc).mono (List.sublist_append_left _ _)

theorem Holds.leave (h : Holds s unread editing) : s.leave = s := by
  have hr := h.ring.lt
  have hback : u32 (2 ^ 32 - 1 + u32 (s.cons.r + 1)) = s.cons.r := by
    unfold u32
    omega
  unfold Sys.leave
  rw [hback]

/-- A call that holds the lock and has not returned. -/
theorem Call.Ok.newline (h : c.Ok s) (hplace : c.place = .loop) : newline ∉ c.got := by
  have hok := h.place
  rw [hplace] at hok
  exact hok

theorem Call.Ok.finish (h : c.Ok s) {r : Int} {why : Why}
    (hok : (Place.returned r why).Ok c.n c.got) :
    ({ c with place := .returned r why } : Call).Ok s :=
  ⟨hok, h.eof, h.length, h.taken⟩

theorem Holds.finish (h : Holds s unread editing) (hc : c.Ok s) {r : Int} {why : Why}
    (hok : (Place.returned r why).Ok c.n c.got) : Holds (s.finish p c r why) unread editing :=
  h.call none (hc.finish hok) nofun

/-- One more character for the call. -/
theorem Call.Ok.snoc (h : c.Ok s) (hroom : c.got.length < c.n) (hch : ch ≠ ctrlD)
    (hhead : s.cons.buf (s.cons.r % inputBufSize) = ch) (place : Place)
    (hplace : place.Ok c.n (c.got ++ [ch])) :
    ({ c with got := c.got ++ [ch], place } : Call).Ok s.take where
  place := hplace
  eof hmem := by
    rcases List.mem_append.mp hmem with hmem | hmem
    · exact h.eof hmem
    · exact hch (List.mem_singleton.mp hmem).symm
  length := by
    refine .inr ?_
    show ((c.got ++ [ch]).length : Int) ≤ c.n
    rw [List.length_append, List.length_singleton]
    omega
  taken := by
    show (c.got ++ [ch]).Sublist (s.taken ++ [_])
    rw [hhead]
    exact h.taken.append (List.Sublist.refl _)

/-- **A round of a reader.** -/
theorem Holds.consoleread (h : Holds s unread editing) (hp : s.calls p = some c)
    (hplace : c.place = .loop)
    (copied : Bool) : ∃ unread', Holds (consoleread s p c copied) unread' editing := by
  have hc := h.calls p c hp
  have hline := hc.newline hplace
  unfold Console.consoleread
  by_cases hroom : (c.got.length : Int) < c.n
  swap
  · rw [if_neg hroom]
    exact ⟨unread, h.finish hc ⟨rfl, by omega, hline⟩⟩
  rw [if_pos hroom]
  by_cases hempty : s.cons.r = s.cons.w
  · have hunread : unread = [] := (h.parts.1.empty_iff (by decide)).mp hempty
    rw [if_pos hempty]
    refine ⟨unread, ?_⟩
    by_cases hkilled : s.killed p = true
    · rw [if_pos hkilled]
      exact h.finish hc ⟨rfl, hline⟩
    · rw [if_neg hkilled]
      exact h.call none (hc.goes_on (by rw [hplace]; rfl) rfl) fun _ => hunread
  rw [if_neg hempty]
  obtain ⟨ch, unread, rfl⟩ : ∃ ch l, unread = ch :: l :=
    List.exists_cons_of_ne_nil fun hnil => hempty ((h.parts.1.empty_iff (by decide)).mpr hnil)
  obtain ⟨hhead, htake⟩ := h.take
  have hc' : c.Ok s.take := hc.mono (List.sublist_append_left _ _)
  simp only [hhead]
  by_cases heof : ch = ctrlD
  · rw [if_pos heof]
    by_cases hsome : c.n - (c.got.length : Int) < c.n
    · rw [if_pos hsome, h.leave]
      exact ⟨_, h.finish hc ⟨rfl, hline⟩⟩
    · rw [if_neg hsome]
      exact ⟨_, htake.finish hc' ⟨rfl, hline⟩⟩
  rw [if_neg heof]
  cases copied with
  | false => exact ⟨_, htake.finish hc' ⟨rfl, hline⟩⟩
  | true =>
    rw [if_pos rfl]
    by_cases hnew : ch = newline
    · rw [if_pos hnew]
      refine ⟨unread, htake.call none (hc.snoc hroom heof hhead (.returned _ .line) ⟨rfl,
        c.got, by rw [hnew], hline⟩) nofun⟩
    · rw [if_neg hnew]
      refine ⟨unread, htake.call s.lock (hc.snoc hroom heof hhead c.place ?_) ?_⟩
      · rw [hplace]
        exact fun hmem => (List.mem_append.mp hmem).elim hline fun hmem =>
          hnew (List.mem_singleton.mp hmem).symm
      · show c.place = .asleep → _
        rw [hplace]
        exact nofun

/-! ## Keys -/

theorem display_backspace (echo : List Nat) :
    display (echo ++ [backspace]) = (display echo).dropLast := by
  rw [display, List.foldl_append]
  rfl

theorem display_char (echo : List Nat) (ch : UInt8) : display (echo ++ [ch.toNat]) = display echo ++
    [ch.toNat] := by
  have hne : ch.toNat ≠ backspace := Nat.ne_of_lt (Nat.lt_of_lt_of_eq ch.toNat_lt (by decide))
  rw [display, List.foldl_append]
  exact if_neg hne

/-- The last character is erased. -/
theorem Holds.erase (h : Holds s unread (editing ++ [ch])) :
    s.cons.buf (u32 (2 ^ 32 - 1 + s.cons.e) % inputBufSize) = ch ∧
    Holds s.erase unread editing := by
  have hring := h.ring
  rw [← List.append_assoc] at hring
  obtain ⟨hch, hring'⟩ := hring.unpush (by decide)
  rw [Nat.add_comm s.cons.e] at hch hring'
  have hlength := hring.length
  rw [List.length_append, List.length_singleton] at hlength
  refine ⟨hch, hring', h.w, ?_, ?_, fun hfull => ?_, h.awake,
    fun p c hc => (h.calls p c hc).mono (.refl _)⟩
  · show display (typed (s.echo ++ [.key backspace])) = _
    rw [typed_append]
    show display (typed s.echo ++ [backspace]) = _
    rw [display_backspace, h.screen, ← List.append_assoc unread, ← List.append_assoc,
      List.map_append, List.map_singleton, List.dropLast_concat]
    rfl
  · exact ⟨fun hmem => h.edit.1 (List.mem_append_left _ hmem),
      fun hmem => h.edit.2 (List.mem_append_left _ hmem)⟩
  · omega

theorem Holds.ne_iff (h : Holds s unread editing) : s.cons.e ≠ s.cons.w ↔ editing ≠ [] :=
  ne_comm.trans (not_congr (h.parts.2.empty_iff (by decide)))

/-- The whole line is erased. -/
theorem Holds.eraseLine (h : Holds s unread editing) {n : Nat} (hn : editing.length ≤ n) :
    Holds (eraseLine n s) unread [] := by
  induction n generalizing s editing with
  | zero =>
    obtain rfl := List.length_eq_zero_iff.mp (Nat.le_zero.mp hn)
    exact h
  | succ n ih =>
    rw [Console.eraseLine]
    rcases List.eq_nil_or_concat editing with rfl | ⟨editing, ch, rfl⟩
    · rw [if_neg fun hne => h.ne_iff.mp hne.1 rfl]
      exact h
    · rw [List.concat_eq_append] at h hn
      obtain ⟨hch, herase⟩ := h.erase
      rw [List.length_append, List.length_singleton] at hn
      have hline : ch ≠ newline := fun hnew => h.edit.1 (by rw [hnew]; simp)
      rw [if_pos ⟨h.ne_iff.mpr (by simp), by rw [hch]; exact hline⟩]
      exact ih herase (by omega)

/-- A character is echoed and stored; it may make what is edited readable. -/
theorem Holds.store (h : Holds s unread editing) (hroom : (unread ++ editing).length < inputBufSize)
    (ch : UInt8) :
    RingHolds inputBufSize (2 ^ 32) (s.store ch).cons.buf s.cons.r (s.store ch).cons.e
    (unread ++ (editing ++ [ch])) ∧
      display (typed (s.store ch).echo) = (s.taken ++
        (unread ++ (editing ++ [ch]))).map UInt8.toNat := by
  constructor
  · rw [← List.append_assoc]
    exact h.ring.push (by decide) hroom ch
  · show display (typed (s.echo ++ [.key ch.toNat])) = _
    rw [typed_append]
    show display (typed s.echo ++ [ch.toNat]) = _
    rw [display_char, h.screen]
    simp

/-- A process list is none of what the keys put on the screen. -/
theorem Holds.dump (h : Holds s unread editing) (procs : List Listed) :
    Holds (s.dump procs) unread editing where
  ring := h.ring
  w := h.w
  screen := by
    show display (typed (s.echo ++ _)) = _
    rw [typed_append, typed_list, List.append_nil]
    exact h.screen
  edit := h.edit
  full := h.full
  awake := h.awake
  calls p c hc := (h.calls p c hc).mono (.refl _)

/-- **A key.** -/
theorem Holds.consoleintr (h : Holds s unread editing) (procs : List Listed) (key : UInt8) :
    ∃ unread' editing', Holds (consoleintr s procs key) unread' editing' := by
  unfold Console.consoleintr
  by_cases hp : key = ctrlP
  · rw [if_pos hp]
    exact ⟨_, _, h.dump procs⟩
  rw [if_neg hp]
  by_cases hu : key = ctrlU
  · rw [if_pos hu]
    have hcount : u32 (s.cons.e + (2 ^ 32 - s.cons.w)) = editing.length :=
      h.parts.2.length_eq (by decide)
    exact ⟨unread, [], h.eraseLine hcount.symm.le⟩
  rw [if_neg hu]
  by_cases hdel : key = ctrlH ∨ key = del
  · rw [if_pos hdel]
    by_cases hne : s.cons.e ≠ s.cons.w
    · rw [if_pos hne]
      rcases List.eq_nil_or_concat editing with rfl | ⟨editing, ch, rfl⟩
      · exact absurd rfl (h.ne_iff.mp hne)
      · rw [List.concat_eq_append] at h
        exact ⟨unread, editing, h.erase.2⟩
    · rw [if_neg hne]
      exact ⟨_, _, h⟩
  rw [if_neg hdel]
  by_cases hroom : key ≠ 0 ∧ u32 (s.cons.e + (2 ^ 32 - s.cons.r)) < inputBufSize
  swap
  · rw [if_neg hroom]
    exact ⟨_, _, h⟩
  rw [if_pos hroom]
  generalize (if key = ret then newline else key) = ch
  obtain ⟨hring, hscreen⟩ := h.store (h.count ▸ hroom.2) ch
  have hcount : u32 ((s.store ch).cons.e + (2 ^ 32 - (s.store ch).cons.r)) = (unread ++
    (editing ++ [ch])).length :=
    hring.length_eq (by decide)
  have hcalls : ∀ p c, s.calls p = some c → c.Ok (s.store ch) := fun p c hc =>
    (h.calls p c hc).mono (.refl _)
  show ∃ _ _, Holds (if ch = newline ∨ ch = ctrlD ∨
    u32 ((s.store ch).cons.e + (2 ^ 32 - (s.store ch).cons.r)) = inputBufSize then _ else _) _ _
  by_cases hcommit : ch = newline ∨ ch = ctrlD ∨
      u32 ((s.store ch).cons.e + (2 ^ 32 - (s.store ch).cons.r)) = inputBufSize
  · rw [if_pos hcommit]
    refine ⟨unread ++ (editing ++ [ch]), [], ?_, hring.count, ?_, ⟨nofun, nofun⟩, fun _ => by simp,
      fun p c hc hplace => ?_, fun p c hc => (calls_wakeup hcalls hc).1.mono (.refl _)⟩
    · rw [List.append_nil]
      exact hring
    · rw [List.append_nil]
      exact hscreen
    · exact absurd hplace (calls_wakeup hcalls hc).2
  · rw [if_neg hcommit]
    refine ⟨unread, editing ++ [ch], hring, h.w, hscreen, ?_, fun hfull => ?_, h.awake, hcalls⟩
    · have hnew : ch ≠ newline := fun hnew => hcommit (.inl hnew)
      have heof : ch ≠ ctrlD := fun heof => hcommit (.inr (.inl heof))
      simp [h.edit.1, h.edit.2, hnew.symm, heof.symm]
    · exact absurd (.inr (.inr (hcount.trans hfull))) hcommit

/-! ## Runs -/

theorem Boot.holds (h : Boot s) : Holds s [] [] := by
  have hring : RingHolds inputBufSize (2 ^ 32) s.cons.buf s.cons.r s.cons.e [] := by
    rw [h.r, h.e]
    exact .nil (by decide) _
  refine ⟨hring, ?_, ?_, ⟨nofun, nofun⟩, nofun, fun _ _ _ _ => rfl, fun p c hc => ?_⟩
  · rw [h.w, h.r]
    rfl
  · rw [h.echo, h.taken]
    rfl
  · rw [h.calls p] at hc
    cases hc

/-- **A step keeps the invariant.** -/
theorem Holds.step (h : Holds s unread editing) {e : Event} (hstep : Step s e s') :
    ∃ unread' editing', Holds s' unread' editing' := by
  cases e with
  | call p n =>
    obtain ⟨-, hs'⟩ := Option.ite_none_right_eq_some.mp hstep
    obtain rfl := Option.some.inj hs'
    have hok : ({ n } : Call).Ok s := ⟨nofun, nofun, .inl rfl, List.nil_sublist _⟩
    exact ⟨_, _, h.call s.lock hok nofun⟩
  | acquire p =>
    obtain ⟨c, hc, hnext⟩ := Option.bind_eq_some_iff.mp hstep
    obtain ⟨⟨-, hplace⟩, hs'⟩ := Option.ite_none_right_eq_some.mp hnext
    obtain rfl := Option.some.inj hs'
    have hok : ({ c with place := .loop } : Call).Ok s :=
      (h.calls p c hc).goes_on (by rw [hplace]; rfl) rfl
    exact ⟨_, _, h.call (some p) hok nofun⟩
  | round p copied =>
    obtain ⟨c, hc, hnext⟩ := Option.bind_eq_some_iff.mp hstep
    obtain ⟨⟨-, hplace⟩, hs'⟩ := Option.ite_none_right_eq_some.mp hnext
    obtain rfl := Option.some.inj hs'
    obtain ⟨unread', h'⟩ := h.consoleread hc hplace copied
    exact ⟨unread', editing, h'⟩
  | key c procs =>
    obtain ⟨-, hs'⟩ := Option.ite_none_right_eq_some.mp hstep
    obtain rfl := Option.some.inj hs'
    exact h.consoleintr procs c
  | kill p =>
    obtain rfl := Option.some.inj hstep
    refine ⟨_, _, h.setCalls s.lock (Function.update s.killed p true) fun q d hd => ?_⟩
    by_cases hq : q = p
    · rw [hq, Function.update_self] at hd
      obtain ⟨c, hc, rfl⟩ := Option.map_eq_some_iff.mp hd
      by_cases hplace : c.place = .asleep
      · rw [if_pos hplace]
        exact ⟨(h.calls p c hc).goes_on (by rw [hplace]; rfl) rfl, nofun⟩
      · rw [if_neg hplace]
        exact ⟨h.calls p c hc, fun hp => absurd hp hplace⟩
    · rw [Function.update_of_ne hq] at hd
      exact ⟨h.calls q d hd, h.awake q d hd⟩

end

/-- **The console**: in every state that is reached, the screen shows what the readers have taken,
what they may read and what is edited, and besides it the process lists; each call reads at most one
line; a full buffer can be read, and no reader sleeps when something may be read. -/
theorem console_sound {s₀ s : Sys} {es : List Event} (hboot : Boot s₀) (hrun : Run Step s₀ es s) :
    Sound s := by
  have hinv : ∃ unread editing, Holds s unread editing :=
    hrun.invariant (I := fun s => ∃ unread editing, Holds s unread editing)
      (fun _ _ _ ⟨_, _, h⟩ hstep => h.step hstep) ⟨_, _, hboot.holds⟩
  obtain ⟨unread, editing, h⟩ := hinv
  exact h.sound

/-- A console after `consoleinit`. -/
def freshConsole : Sys where
  cons := { buf := fun _ => 0 }

theorem boot_freshConsole : Boot freshConsole := ⟨rfl, rfl, rfl, rfl, fun _ => rfl, rfl, rfl⟩

/-- A process that sleeps. -/
def initProc : Listed := ⟨1, .sleeping, [105, 110, 105, 116]⟩

/-- A reader sleeps; `lx`, control-p, a backspace, `s` and the return key are typed; the
reader gets two characters. -/
def typeLine : List Event :=
  [.call 1 9, .acquire 1, .round 1 true, .key 108 [], .key 120 [], .key ctrlP [initProc],
    .key ctrlH [], .key 115 [], .key ret [], .acquire 1, .round 1 true, .round 1 true]

/-- The keys have put `ls` on the screen, and control-p a line for the process. -/
theorem console_sound_line :
    ∃ s, Run Step freshConsole typeLine s ∧ display (typed s.echo) = [108, 115, 10] ∧
    s.echo.length = 5 + 15 ∧ s.taken = [108, 115] ∧ Sound s := by
  have hsome : ((Run.after next typeLine freshConsole).map
      fun s => (display (typed s.echo), s.echo.length, s.taken)) = some ([108, 115, 10], 5 + 15,
        [108, 115]) := by
    decide +kernel
  obtain ⟨s, hs, heq⟩ := Option.map_eq_some_iff.mp hsome
  rw [Prod.mk.injEq, Prod.mk.injEq] at heq
  have hrun : Run.Meets Step (fun _ _ => True) freshConsole ([] ++ typeLine) s :=
    Run.meets_of_after (fun s e s' h => ⟨trivial, h⟩) typeLine (.nil freshConsole) hs
  exact ⟨s, hrun.run, heq.1, heq.2.1, heq.2.2, console_sound boot_freshConsole hrun.run⟩

end Xv6.Console
