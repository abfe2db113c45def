import OsnMp2.Kernel.ExecSafe

/-!
# The arguments of a program

`exec` pushes the argument strings on the stack page, each at an address that is a multiple of 16,
and below them the array of their addresses. The page has room for them if and only if the rounded
sizes add up to a page at most: the stack pointer moves down by multiples of 16 from the end of a
page, and the test after the subtraction is as good as one before it, since a pointer that wraps
is refused by `copyout`.

`copyout` is given the page table that is being built, but its page fault handler works on that of
the process. The stack page is mapped before the first string is copied and the strings stay on it,
so the handler is never called. That is stated with a copy of the code in which it would halt.

## Main definitions

* `ArgsFit`: there is room for the arguments on one page
* `ArgLayout`: where the arguments are in the new address space
* `copyoutResident`, `pushStackChecked`: the code with an end in place of a page fault, and of a
  store in `ustack` that is out of range

## Main results

* `stackImage_eq_none_iff`: `exec` finds room exactly when there is some
* `execChecked_eq`: no page fault is taken and no store is out of range
* `exec_arguments`: what `exec` does with its arguments
-/

namespace Xv6

open Halting

/-! ## The room on the page -/

/-- A multiple of 16, at `n` or above. -/
def alignUp (n : Nat) : Nat := (n + 15) / 16 * 16

/-- The bytes that an argument string takes on the stack. -/
def argSize (s : List UInt8) : Nat := alignUp ((cstr s).length + 1)

/-- **There is room for the arguments**: the strings and the array of their addresses take a page at
most. -/
def ArgsFit (argv : List (List UInt8)) : Prop :=
  (argv.map argSize).sum + alignUp ((argv.length + 1) * 8) ≤ pgSize

variable {stackbase top sp sp' n : Nat} {argv : List (List UInt8)} {args : List (Nat × List UInt8)}
  {b : Nat → UInt8}

/-- **A push moves the stack pointer** down by a multiple of 16, when there is room. -/
theorem pushFit_eq (hbase : stackbase % 16 = 0) (hsp : sp % 16 = 0) (hlow : sp < 2 ^ 63) :
    pushFit stackbase sp n = if stackbase + alignUp n ≤ sp then some (sp - alignUp n)
    else none := by
  unfold pushFit
  by_cases hn : n ≤ sp
  · have hpush : pushSp sp n = sp - alignUp n := by
      unfold pushSp alignUp u64
      omega
    rw [hpush]
    unfold alignUp
    by_cases hfit : stackbase + (n + 15) / 16 * 16 ≤ sp
    · rw [if_pos hfit, if_pos ⟨hn, by omega⟩]
    · rw [if_neg hfit, if_neg (by omega)]
  · rw [if_neg fun h => hn h.1, if_neg]
    unfold alignUp
    omega

/-- **The strings are pushed** when there is room for all of them. -/
theorem stackArgs_eq_none_iff (hbase : stackbase % 16 = 0) : ∀ (argv : List (List UInt8)) {sp : Nat}
    {ustack : List Nat} {b : Nat → UInt8}, sp % 16 = 0 → sp < 2 ^ 63 →
    ustack.length + argv.length ≤ maxArg → stackbase ≤ sp →
    (stackArgs stackbase argv sp ustack b = none ↔ sp < stackbase + (argv.map argSize).sum) ∧
      ∀ x, stackArgs stackbase argv sp ustack b = some x → x.1 = sp - (argv.map argSize).sum := by
  intro argv
  induction argv with
  | nil =>
    intro sp ustack b _ _ _ hle
    refine ⟨⟨fun h => (by cases h), fun h => ?_⟩, fun x hx => ?_⟩
    · simp only [List.map_nil, List.sum_nil] at h
      omega
    · obtain rfl := Option.some.inj hx
      rfl
  | cons s rest ih =>
    intro sp ustack b hsp hlow hlen hle
    rw [List.length_cons] at hlen
    rw [stackArgs, if_neg (by omega), pushFit_eq hbase hsp hlow, List.map_cons, List.sum_cons]
    have hs : argSize s = alignUp ((cstr s).length + 1) := rfl
    rw [← hs]
    by_cases hfit : stackbase + argSize s ≤ sp
    · rw [if_pos hfit]
      have hmod : (sp - argSize s) % 16 = 0 := by
        rw [hs] at hfit ⊢
        unfold alignUp at hfit ⊢
        omega
      have hlen' : (ustack ++ [sp - argSize s]).length + rest.length ≤ maxArg := by
        rw [List.length_append, List.length_singleton]
        omega
      obtain ⟨hnone, hsome⟩ := ih (b := writeAt b (sp - argSize s - stackbase) (cstr s ++ [0])) hmod
        (by omega) hlen' (by omega)
      refine ⟨hnone.trans (by omega), fun x hx => ?_⟩
      rw [hsome x hx]
      omega
    · rw [if_neg hfit]
      exact ⟨⟨fun _ => by omega, fun _ => rfl⟩, fun x hx => by cases hx⟩

theorem sum_argSize_mod (argv : List (List UInt8)) : (argv.map argSize).sum % 16 = 0 := by
  induction argv with
  | nil => rfl
  | cons s rest ih =>
    rw [List.map_cons, List.sum_cons]
    unfold argSize alignUp at ih ⊢
    omega

/-- **`exec` finds room for the arguments exactly when there is some.** -/
theorem stackImage_eq_none_iff (hbase : stackbase % pgSize = 0) (hlow : stackbase < maxVa)
    (hlen : argv.length < maxArg) : stackImage stackbase (stackbase + pgSize) argv = none ↔
    ¬ ArgsFit argv := by
  have hb : stackbase % 16 = 0 := by
    simp only [pgSize] at hbase
    omega
  have hsp : (stackbase + pgSize) % 16 = 0 := by
    simp only [pgSize] at hbase ⊢
    omega
  have hlow' : stackbase + pgSize < 2 ^ 63 := by
    simp only [maxVa, pgSize] at hlow ⊢
    omega
  have hcount : ([] : List Nat).length + argv.length ≤ maxArg := by
    rw [List.length_nil]
    omega
  obtain ⟨hnone, hsome⟩ := stackArgs_eq_none_iff hb argv hsp hlow' hcount (Nat.le_add_right _ _)
  unfold stackImage ArgsFit
  cases hargs : stackArgs stackbase argv (stackbase + pgSize) [] fun _ => 0 with
  | none =>
    have hlt := hnone.mp hargs
    exact ⟨fun _ => by omega, fun _ => rfl⟩
  | some x =>
    obtain ⟨sp, ustack, b⟩ := x
    have hle : ¬ stackbase + pgSize < stackbase + (argv.map argSize).sum := by
      intro hlt
      rw [hnone.mpr hlt] at hargs
      cases hargs
    have hsp' : sp = stackbase + pgSize - (argv.map argSize).sum := hsome _ hargs
    have hcount : ustack.length = argv.length := by
      have hlen := length_ustack argv hargs
      rwa [List.length_nil, Nat.zero_add] at hlen
    have hmod : sp % 16 = 0 := by
      have hsum := sum_argSize_mod argv
      omega
    dsimp only
    rw [pushFit_eq hb hmod (by omega), hcount]
    by_cases hfit : stackbase + alignUp ((argv.length + 1) * 8) ≤ sp
    · rw [if_pos hfit]
      exact ⟨fun h => (nomatch h), fun h => absurd (by omega) h⟩
    · rw [if_neg hfit]
      exact ⟨fun _ => by omega, fun _ => rfl⟩

/-! ## What is on the page -/

/-- **The strings that have been pushed**, with their addresses: they are on the page, above the
stack pointer, and do not overlap. -/
structure Pushed (stackbase top sp : Nat) (args : List (Nat × List UInt8)) (b : Nat → UInt8) :
    Prop where
  low : stackbase ≤ sp
  high : sp ≤ top
  within : ∀ x ∈ args, sp ≤ x.1 ∧ x.1 + (x.2.length + 1) ≤ top
  disjoint : args.Pairwise fun x y => y.1 + (y.2.length + 1) ≤ x.1
  bytes : ∀ x ∈ args, ∀ n c, (x.2 ++ [0])[n]? = some c → b (x.1 - stackbase + n) = c

theorem pushFit_spec (hsp : sp < 2 ^ 63) (h : pushFit stackbase sp n = some sp') :
    stackbase ≤ sp' ∧ sp' + n ≤ sp ∧ sp' % 16 = 0 := by
  unfold pushFit at h
  split at h
  · next hfit =>
    obtain rfl := Option.some.inj h
    refine ⟨hfit.2, ?_⟩
    unfold pushSp u64
    omega
  · cases h

/-- What is written below the strings does not change them. -/
theorem Pushed.write (h : Pushed stackbase top sp args b) {bs : List UInt8} (hlow : stackbase ≤ sp')
    (hle : sp' + bs.length ≤ sp) :
    Pushed stackbase top sp' args (writeAt b (sp' - stackbase) bs) where
  low := hlow
  high := by
    have hhigh := h.high
    omega
  within x hx := by
    have hin := h.within x hx
    omega
  disjoint := h.disjoint
  bytes x hx n c hc := by
    have hin := h.within x hx
    have hbase := h.low
    rw [← h.bytes x hx n c hc, writeAt, if_neg (by omega)]

/-- The bytes that are written are there. -/
theorem writeAt_get {off : Nat} {bs : List UInt8} {c : UInt8} (h : bs[n]? = some c) :
    writeAt b off bs (off + n) = c := by
  obtain ⟨hn, hc⟩ := List.getElem?_eq_some_iff.mp h
  rw [writeAt, if_pos (by omega), Nat.add_sub_cancel_left, List.getD_eq_getElem?_getD, h]
  rfl

/-- **A string is pushed.** -/
theorem Pushed.push (h : Pushed stackbase top sp args b) {s : List UInt8} (hsp : sp < 2 ^ 63)
    (hfit : pushFit stackbase sp (s.length + 1) = some sp') :
    Pushed stackbase top sp' (args ++ [(sp', s)]) (writeAt b (sp' - stackbase) (s ++ [0])) := by
  obtain ⟨hlow, hle, -⟩ := pushFit_spec hsp hfit
  have hlen : (s ++ [0]).length = s.length + 1 := by rw [List.length_append, List.length_singleton]
  have hold := h.write hlow (hlen ▸ hle)
  have hhigh := h.high
  refine ⟨hlow, hold.high, fun x hx => ?_, ?_, fun x hx n c hc => ?_⟩
  · rcases List.mem_append.mp hx with hx | hx
    · exact hold.within x hx
    · obtain rfl := List.mem_singleton.mp hx
      exact ⟨Nat.le_refl _, by dsimp only; omega⟩
  · refine List.pairwise_append.mpr ⟨h.disjoint, List.pairwise_singleton _ _, fun x hx y hy => ?_⟩
    obtain rfl := List.mem_singleton.mp hy
    exact hle.trans (h.within x hx).1
  · rcases List.mem_append.mp hx with hx | hx
    · exact hold.bytes x hx n c hc
    · obtain rfl := List.mem_singleton.mp hx
      exact writeAt_get hc

/-- **The loop over the strings pushes them.** -/
theorem stackArgs_pushed :
    ∀ (argv : List (List UInt8)) {sp : Nat} {args : List (Nat × List UInt8)} {b : Nat → UInt8}
    {x : Nat × List Nat × (Nat → UInt8)}, Pushed stackbase top sp args b → top < 2 ^ 63 →
    stackArgs stackbase argv sp (args.map Prod.fst) b = some x →
    ∃ args', args'.map Prod.snd = args.map Prod.snd ++ argv.map cstr ∧ args'.map Prod.fst = x.2.1 ∧
      Pushed stackbase top x.1 args' x.2.2 := by
  intro argv
  induction argv with
  | nil =>
    intro sp args b x h _ hx
    obtain rfl := Option.some.inj hx
    exact ⟨args, (List.append_nil _).symm, rfl, h⟩
  | cons s rest ih =>
    intro sp args b x h htop hx
    rw [stackArgs] at hx
    split at hx
    · cases hx
    cases hfit : pushFit stackbase sp ((cstr s).length + 1) with
    | none =>
      rw [hfit] at hx
      cases hx
    | some sp' =>
      rw [hfit] at hx
      have hpush := h.push (Nat.lt_of_le_of_lt h.high htop) hfit
      have hfst : (args ++ [(sp', cstr s)]).map Prod.fst = args.map Prod.fst ++ [sp'] := by
        rw [List.map_append, List.map_singleton]
      obtain ⟨args', hsnd, hfst', hp⟩ := ih hpush htop (by rw [hfst]; exact hx)
      refine ⟨args', ?_, hfst', hp⟩
      rw [hsnd, List.map_append, List.map_singleton, List.append_assoc, List.singleton_append,
        List.map_cons]

/-! ### The array of addresses -/

theorem le_succ (d : Nat → UInt8) (off n : Nat) :
    le d off (n + 1) = (d off).toNat + 256 * le d (off + 1) n := by
  unfold le
  rw [List.range_succ_eq_map, List.foldr_cons, List.foldr_map, Nat.add_zero]
  congr 3
  funext k acc
  rw [Nat.succ_eq_add_one, Nat.add_comm k 1, Nat.add_assoc]

/-- The bytes of a number are read back. -/
theorem le_leBytes : ∀ (n : Nat) {w off : Nat} {d : Nat → UInt8}, w < 256 ^ n →
    (∀ k c, (leBytes w n)[k]? = some c → d (off + k) = c) → le d off n = w := by
  intro n
  induction n with
  | zero =>
    intro w off d hw _
    rw [Nat.pow_zero] at hw
    exact (Nat.lt_one_iff.mp hw).symm
  | succ n ih =>
    intro w off d hw hd
    have hfirst : d off = UInt8.ofNat w := hd 0 _ rfl
    have hrest : le d (off + 1) n = w / 256 := by
      apply ih
      · rw [Nat.pow_succ] at hw
        exact Nat.div_lt_of_lt_mul (by rwa [Nat.mul_comm])
      · intro k c hc
        rw [Nat.add_assoc, Nat.add_comm 1 k]
        exact hd (k + 1) c hc
    rw [le_succ, hfirst, hrest, UInt8.toNat_ofNat']
    exact Nat.mod_add_div w 256

/-- The bytes of each word of an array. -/
theorem flatMap_leBytes_get (l : List Nat) : ∀ {j k w : Nat} {c : UInt8}, l[j]? = some w →
    (leBytes w 8)[k]? = some c → (l.flatMap fun w => leBytes w 8)[8 * j + k]? = some c := by
  induction l with
  | nil =>
    intro j k w c hj
    rw [List.getElem?_nil] at hj
    cases hj
  | cons a l ih =>
    intro j k w c hj hk
    rw [List.flatMap_cons]
    cases j with
    | zero =>
      obtain rfl := Option.some.inj hj
      rw [Nat.mul_zero, Nat.zero_add, List.getElem?_append_left]
      · exact hk
      · exact (List.getElem?_eq_some_iff.mp hk).1
    | succ j =>
      have hlen : (leBytes a 8).length = 8 := rfl
      rw [List.getElem?_append_right (by omega), hlen]
      have hpos : 8 * (j + 1) + k - 8 = 8 * j + k := by omega
      rw [hpos]
      exact ih hj hk

/-! ## The new address space -/

/-- The bytes `bs` are what the user loads from `va` on. -/
def UserBytes (t : Task) (va : Nat) (bs : List UInt8) : Prop :=
  ∀ n c, bs[n]? = some c → userLoad t (va + n) = some c

/-- The word that the user loads at `va`. -/
def UserWord (t : Task) (va w : Nat) : Prop :=
  ∃ d : Nat → UInt8, (∀ n < 8, userLoad t (va + n) = some (d n)) ∧ le d 0 8 = w

/-- **The arguments in the address space**: the array of the addresses at `sp`, with a null pointer
at its end, and above it the strings, all on the page at `stackbase` and without overlap. -/
structure ArgLayout (t : Task) (stackbase sp : Nat) (args : List (Nat × List UInt8)) : Prop where
  aligned : sp % 16 = 0
  low : stackbase ≤ sp
  array : sp + 8 * (args.length + 1) ≤ stackbase + pgSize
  pointers : ∀ j a, (args.map Prod.fst ++ [0])[j]? = some a → UserWord t (sp + 8 * j) a
  strings : ∀ x ∈ args, UserBytes t x.1 (x.2 ++ [0])
  noNul : ∀ x ∈ args, 0 ∉ x.2
  within : ∀ x ∈ args, sp + 8 * (args.length + 1) ≤ x.1 ∧
    x.1 + (x.2.length + 1) ≤ stackbase + pgSize
  disjoint : args.Pairwise fun x y => y.1 + (y.2.length + 1) ≤ x.1

/-- **What is on the stack page**, when there is room. -/
structure PageLayout (stackbase sp : Nat) (args : List (Nat × List UInt8)) (b : Nat → UInt8) :
    Prop where
  aligned : sp % 16 = 0
  array : sp + 8 * (args.length + 1) ≤ stackbase + pgSize
  pointers : ∀ j k a c, (args.map Prod.fst ++ [0])[j]? = some a → (leBytes a 8)[k]? = some c →
    b (sp - stackbase + (8 * j + k)) = c
  pushed : Pushed stackbase (stackbase + pgSize) sp args b
  above : ∀ x ∈ args, sp + 8 * (args.length + 1) ≤ x.1

theorem stackImage_layout {argc : Nat} (hlow : stackbase < maxVa)
    (h : stackImage stackbase (stackbase + pgSize) argv = some (sp, argc, b)) :
    ∃ args, args.map Prod.snd = argv.map cstr ∧ PageLayout stackbase sp args b := by
  have htop : stackbase + pgSize < 2 ^ 63 := by
    simp only [maxVa, pgSize] at hlow ⊢
    omega
  unfold stackImage at h
  cases hargs : stackArgs stackbase argv (stackbase + pgSize) [] fun _ => 0 with
  | none =>
    rw [hargs] at h
    cases h
  | some x =>
    obtain ⟨sp₁, ustack, b₁⟩ := x
    rw [hargs] at h
    dsimp only at h
    have hempty : Pushed stackbase (stackbase + pgSize) (stackbase + pgSize) [] fun _ => 0 :=
      ⟨Nat.le_add_right _ _, Nat.le_refl _, fun _ hx => absurd hx List.not_mem_nil,
        List.Pairwise.nil, fun _ hx => absurd hx List.not_mem_nil⟩
    obtain ⟨args, hsnd, hfst, hp⟩ := stackArgs_pushed argv hempty htop hargs
    dsimp only at hfst hp
    have hcount : ustack.length = args.length := by rw [← hfst, List.length_map]
    rw [hcount] at h
    cases hfit : pushFit stackbase sp₁ ((args.length + 1) * 8) with
    | none =>
      rw [hfit] at h
      cases h
    | some sp₂ =>
      rw [hfit] at h
      obtain ⟨rfl, hrest⟩ := Prod.mk.inj (Option.some.inj h)
      obtain ⟨-, rfl⟩ := Prod.mk.inj hrest
      obtain ⟨hlow', hle, hmod⟩ := pushFit_spec (Nat.lt_of_le_of_lt hp.high htop) hfit
      have hlen : ((ustack ++ [0]).flatMap fun w => leBytes w 8).length =
        (args.length + 1) * 8 := by
        rw [length_flatMap_leBytes, List.length_append, List.length_singleton, hcount]
      refine ⟨args, hsnd, hmod, ?_, fun j k a c hj hk => ?_,
        hp.write hlow' (by rw [hlen]; exact hle), fun x hx => ?_⟩
      · have hhigh := hp.high
        omega
      · apply writeAt_get
        rw [← hfst]
        exact flatMap_leBytes_get _ hj hk
      · have hin := hp.within x hx
        omega

variable {t : Task} {root : Frame}

/-- The bytes of the stack page are what the user loads. -/
theorem userLoad_stack {va : Nat} {f : Frame} (hp : t.p.pagetable = some root)
    (hf : t.mem.lookup root stackbase = some ⟨true, { r := true, w := true, u := true }, f⟩)
    (hal : stackbase % pgSize = 0) (hlow : stackbase < trapframeVa) (hva : stackbase ≤ va)
    (hva' : va < stackbase + pgSize) :
    userLoad t va = some ((t.mem.phys f).byte (va - stackbase)) := by
  have hpage : va / pgSize = stackbase / pgSize := by
    simp only [pgSize] at *
    omega
  have hoff : va % pgSize = va - stackbase := by
    simp only [pgSize] at *
    omega
  have hmax : ¬ maxVa ≤ va := by
    simp only [trapframeVa, trampolineVa, maxVa, pgSize] at *
    omega
  unfold userLoad
  rw [hp]
  dsimp only
  rw [if_neg hmax, lookup_of_page hpage, hf]
  dsimp only
  rw [if_pos (by rfl), hoff]

theorem cstr_noNul (s : List UInt8) : 0 ∉ cstr s := by
  intro hmem
  have hne := List.all_takeWhile (p := fun c : UInt8 => decide (c ≠ 0)) (l := s)
  rw [List.all_eq_true] at hne
  exact absurd (hne 0 hmem) (by decide)

/-- **The arguments are in the new address space.** -/
theorem PageLayout.argLayout {f : Frame} (h : PageLayout stackbase sp args b)
    (hsnd : args.map Prod.snd = argv.map cstr) (hp : t.p.pagetable = some root)
    (hf : t.mem.lookup root stackbase = some ⟨true, { r := true, w := true, u := true }, f⟩)
    (hb : (t.mem.phys f).byte = b) (hal : stackbase % pgSize = 0) (hlow : stackbase < trapframeVa) :
    ArgLayout t stackbase sp args where
  aligned := h.aligned
  low := h.pushed.low
  array := h.array
  pointers j a hj := by
    have hj' := (List.getElem?_eq_some_iff.mp hj).1
    rw [List.length_append, List.length_map, List.length_singleton] at hj'
    have harray := h.array
    have hbase := h.pushed.low
    refine ⟨fun n => b (sp - stackbase + (8 * j + n)), fun n hn => ?_, ?_⟩
    · rw [userLoad_stack hp hf hal hlow (by omega) (by omega), hb]
      congr 2
      omega
    · have ha : a < 256 ^ 8 := by
        rcases List.mem_append.mp (List.mem_of_getElem? hj) with ha | ha
        · obtain ⟨x, hx, rfl⟩ := List.mem_map.mp ha
          have hin := h.pushed.within x hx
          simp only [trapframeVa, trampolineVa, maxVa, pgSize] at *
          omega
        · rw [List.mem_singleton.mp ha]
          decide
      refine le_leBytes 8 ha fun k c hc => ?_
      rw [Nat.zero_add]
      exact h.pointers j k a c hj hc
  strings x hx n c hc := by
    have hin := h.pushed.within x hx
    have hbase := h.pushed.low
    have hn := (List.getElem?_eq_some_iff.mp hc).1
    rw [List.length_append, List.length_singleton] at hn
    rw [userLoad_stack hp hf hal hlow (by omega) (by omega), hb, ← h.pushed.bytes x hx n c hc]
    congr 2
    omega
  noNul x hx := by
    have hmem : x.2 ∈ argv.map cstr := hsnd ▸ List.mem_map_of_mem hx
    obtain ⟨s, -, hs⟩ := List.mem_map.mp hmem
    rw [← hs]
    exact cstr_noNul s
  within x hx := ⟨h.above x hx, (h.pushed.within x hx).2⟩
  disjoint := h.pushed.disjoint

/-! ## No page fault, and no store out of range -/

/-- The loop of `copyout`, with an end in place of a page fault. -/
def copyoutResidentLoop (pagetable : Frame) : Nat → Nat → List UInt8 → TM (Int × List UInt8)
  | 0, _, src => pure (0, src)
  | fuel + 1, dstva, src => do
    if src.length = 0 then pure (0, src)
    else if maxVa ≤ pgRoundDown dstva then pure (-1, src)
    else do
      match ← onMem (walkaddr pagetable (pgRoundDown dstva)) with
      | none => halt (.panic .kerneltrap)
      | some pa0 => do
        match ← onMem (walk pagetable (pgRoundDown dstva) false) with
        | none => halt (.panic .kerneltrap)
        | some (f, i) => do
          let pte ← onMem (readPte f i)
          if !pte.perm.w then pure (-1, src)
          else do
            let n := min (pgSize - (dstva - pgRoundDown dstva)) src.length
            onMem (modify fun m => m.setBytes pa0 (dstva - pgRoundDown dstva) (src.take n))
            copyoutResidentLoop pagetable fuel (pgRoundDown dstva + pgSize) (src.drop n)

/-- `copyout`, with an end in place of a page fault. -/
def copyoutResident (pagetable : Frame) (dstva : Nat) (src : List UInt8) : TM Int := do
  let (r, _) ← copyoutResidentLoop pagetable src.length dstva src
  pure r

/-- A store in `ustack`, with an end in place of one that is out of range. -/
def storeUstack (ustack : List Nat) (w : Nat) : TM (List Nat) :=
  if ustack.length < maxArg then pure (ustack ++ [w]) else halt (.panic .kerneltrap)

/-- `pushArgs`, with the checks. -/
def pushArgsChecked (pagetable : Frame) (stackbase : Nat) :
    List (List UInt8) → Nat → List Nat → TM (Option (Nat × List Nat))
  | [], sp, ustack => pure (some (sp, ustack))
  | s :: rest, sp, ustack => do
    if maxArg ≤ ustack.length then pure none
    else if pushSp sp ((cstr s).length + 1) < stackbase then pure none
    else if (← copyoutResident pagetable (pushSp sp ((cstr s).length + 1)) (cstr s ++ [0])) < 0 then
      pure none
    else do
      let ustack ← storeUstack ustack (pushSp sp ((cstr s).length + 1))
      pushArgsChecked pagetable stackbase rest (pushSp sp ((cstr s).length + 1)) ustack

/-- `pushStack`, with the checks. -/
def pushStackChecked (pagetable : Frame) (stackbase sp : Nat) (argv : List (List UInt8)) :
    TM (Option (Nat × Nat)) := do
  match ← pushArgsChecked pagetable stackbase argv sp [] with
  | none => pure none
  | some (sp, ustack) => do
    let array ← storeUstack ustack 0
    if pushSp sp ((ustack.length + 1) * 8) < stackbase then pure none
    else if (← copyoutResident pagetable (pushSp sp ((ustack.length + 1) * 8))
        (array.flatMap fun w => leBytes w 8)) < 0 then pure none
    else pure (some (pushSp sp ((ustack.length + 1) * 8), ustack.length))

/-- How the arguments are pushed: from the page table, the base and the end of the stack page. -/
abbrev Push : Type := Frame → Nat → Nat → List (List UInt8) → TM (Option (Nat × Nat))

/-- `execStack`, with a way to push the arguments. -/
def execStackWith (push : Push) (pagetable : Frame) (sz entry : Nat) (argv : List (List UInt8)) :
    TM Int := do
  match ← onMem kalloc with
  | none => execBad pagetable
  | some mem => do
    onMem (memset mem 0)
    if (← onMem (mappages pagetable (pgRoundDown (execStackbase sz)) pgSize mem
        { r := true, w := true, u := true })) ≠ 0 then do
      onMem (kfree mem)
      execBad pagetable
    else do
      match ← push pagetable (execStackbase sz) sz argv with
      | none => execBad pagetable
      | some (sp, argc) => do
        execCommit pagetable sz sp (pgRoundDown (execStackbase sz)) entry
        pure argc

/-- `execImage`, with a way to push the arguments. -/
def execImageWith (push : Push) (fs : Fs) (ip : Nat) (argv : List (List UInt8)) : TM Int := do
  let (r, bytes) ← liftFs (readi fs ip 0 elfHdrSize)
  if r ≠ elfHdrSize then pure (-1)
  else if (ElfHdr.ofBytes bytes).magic ≠ elfMagic then pure (-1)
  else do
    let t ← get
    match ← onMem (procPagetable (t.p.trapframe.getD 0)) with
    | none => pure (-1)
    | some pagetable => do
      setProc fun p => { p with lazyNseg := 0, pfSeq := 0 }
      match ← recordSegs fs ip (ElfHdr.ofBytes bytes).phnum (ElfHdr.ofBytes bytes).phoff 0 with
      | none => execBad pagetable
      | some segEnd =>
        execStackWith push pagetable (execSize segEnd) (ElfHdr.ofBytes bytes).entry argv

/-- `exec`, with a way to push the arguments. -/
def execWith (push : Fs → Push) (i : Nat) (path : List UInt8) (argv : List (List UInt8)) :
    K Int := do
  match ← namei i path with
  | none => pure (-1)
  | some ip => do
    ilockInode i ip
    let r ← onTask i fun fs => execImageWith (push fs) fs ip argv
    if 0 ≤ r then idup ip else pure ()
    iunlock i ip
    pure r

/-- `exec`, with an end in place of a page fault in `copyout`, and of a store in `ustack`
that is out of range. -/
def execChecked (i : Nat) (path : List UInt8) (argv : List (List UInt8)) : K Int :=
  execWith (fun _ => pushStackChecked) i path argv

/-- Into the stack page, or beyond the address space, `copyout` takes no page fault. -/
theorem copyoutResident_eq (fs : Fs) {f : Frame} {dst : Nat} {src : List UInt8}
    (h : StackPage t.mem root stackbase f) (hsrc : src ≠ [])
    (hdst : stackbase ≤ dst ∧ dst + src.length ≤ stackbase + pgSize ∨ maxVa + pgSize ≤ dst) :
    copyoutResident root dst src t = copyout fs root dst src t := by
  obtain ⟨n, hn⟩ : ∃ n, src.length = n + 1 :=
    ⟨src.length - 1, by have hpos := List.length_pos_iff.mpr hsrc; omega⟩
  have hal := h.aligned
  have hlow := h.low
  suffices hloop : copyoutResidentLoop root src.length dst src t =
    copyoutLoop fs root src.length dst src t by
    unfold copyoutResident copyout
    rw [bind_apply, bind_apply, hloop]
  have hzero : ¬ src.length = 0 := by omega
  rw [hn, copyoutResidentLoop, copyoutLoop, if_neg hzero, if_neg hzero]
  rcases hdst with ⟨hlo, hhi⟩ | hbeyond
  · have hbase : pgRoundDown dst = stackbase := by
      unfold pgRoundDown
      simp only [pgSize] at *
      omega
    obtain ⟨e, he, hu, hw, rfl⟩ := h.mapped
    have hwalk : onMem (walkaddr root stackbase) t = .ok (some e.ppn, t) := by
      rw [onMem_walkaddr hlow, he, Option.bind_some, if_pos hu]
    have hfault : walkaddrFault fs root stackbase true t = .ok (some e.ppn, t) := by
      unfold walkaddrFault
      rw [bind_of_ok hwalk]
      rfl
    have hmax : ¬ maxVa ≤ stackbase := Nat.not_le.mpr hlow
    rw [hbase, if_neg hmax, if_neg hmax, bind_of_ok hwalk, bind_of_ok hfault]
    dsimp only
    -- the one round copies everything
    rw [lookup_eq_leaf] at he
    obtain ⟨pt, hpt, hv, hpte⟩ := leaf_eq_some.mp he
    have hmin : min (pgSize - (dst - stackbase)) src.length = src.length := by
      simp only [pgSize] at *
      omega
    rw [bind_of_ok (onMem_walk hlow), bind_of_ok (onMem_walk hlow), hpt]
    dsimp only [Option.map_some]
    rw [bind_of_ok (onMem_readPte _ _ _), bind_of_ok (onMem_readPte _ _ _), hpte,
      if_neg (by simp [hw]), if_neg (by simp [hw]), hmin, List.take_length, List.drop_length]
    have hend : copyoutResidentLoop root n (stackbase + pgSize) [] = pure (0, []) := by
      cases n <;> rfl
    have hend' : copyoutLoop fs root n (stackbase + pgSize) [] = pure (0, []) := by
      cases n <;> rfl
    rw [hend, hend']
  · have hbase : maxVa ≤ pgRoundDown dst := by
      unfold pgRoundDown
      simp only [maxVa, pgSize] at *
      omega
    rw [if_pos hbase, if_pos hbase]

/-- Where a push puts its bytes. -/
theorem pushSp_place (hlow : stackbase < maxVa) (hsp : stackbase ≤ sp)
    (hsp' : sp ≤ stackbase + pgSize) (hn : n ≤ 2 ^ 63) (hfit : ¬ pushSp sp n < stackbase) :
    stackbase ≤ pushSp sp n ∧ pushSp sp n + n ≤ stackbase + pgSize ∨
    maxVa + pgSize ≤ pushSp sp n := by
  by_cases hle : n ≤ sp
  · refine Or.inl ⟨Nat.le_of_not_lt hfit, ?_⟩
    unfold pushSp u64
    simp only [maxVa, pgSize] at *
    omega
  · refine Or.inr ?_
    unfold pushSp u64
    simp only [maxVa, pgSize] at *
    omega

theorem length_cstr_le (hargv : ArgvOk argv) {s : List UInt8} (hs : s ∈ argv) :
    (cstr s ++ [0]).length ≤ 2 ^ 63 := by
  have hlen := hargv s hs
  have htake : (cstr s).length ≤ s.length := (List.takeWhile_sublist _).length_le
  rw [List.length_append, List.length_singleton]
  omega

/-- **Pushing the strings** takes no page fault and stores in range. -/
theorem pushArgsChecked_eq (fs : Fs) {f : Frame} :
    ∀ (argv : List (List UInt8)) {sp : Nat} {ustack : List Nat}
    {t : Task}, ArgvOk argv → StackPage t.mem root stackbase f → stackbase ≤ sp →
    sp ≤ stackbase + pgSize →
    pushArgsChecked root stackbase argv sp ustack t = pushArgs fs root stackbase argv sp
    ustack t := by
  intro argv
  induction argv with
  | nil => exact fun _ _ _ _ => rfl
  | cons s rest ih =>
    intro sp ustack t hargv h hsp hsp'
    have hlen := length_cstr_le hargv List.mem_cons_self
    have hlen' : (cstr s ++ [0]).length = (cstr s).length + 1 := by
      rw [List.length_append, List.length_singleton]
    have hne : cstr s ++ [0] ≠ [] := List.append_ne_nil_of_right_ne_nil _ (List.cons_ne_nil _ _)
    rw [pushArgsChecked, pushArgs]
    by_cases hcount : maxArg ≤ ustack.length
    · rw [if_pos hcount, if_pos hcount]
    rw [if_neg hcount, if_neg hcount]
    by_cases hbase : pushSp sp ((cstr s).length + 1) < stackbase
    · rw [if_pos hbase, if_pos hbase]
    rw [if_neg hbase, if_neg hbase]
    have hplace := pushSp_place h.low hsp hsp' (hlen' ▸ hlen) hbase
    rw [bind_apply, bind_apply, copyoutResident_eq fs h hne (by rw [hlen']; exact hplace)]
    rcases push_spec fs h hsp hsp' hne hlen with ⟨sp', -, heq, hlo, hle, hcopy⟩ | ⟨-, hfail⟩
    · rw [hlen'] at heq
      rw [← heq, hcopy]
      dsimp only
      rw [if_neg (by decide), if_neg (by decide), storeUstack, if_pos (Nat.lt_of_not_le hcount)]
      exact ih (fun a ha => hargv a (List.mem_cons_of_mem s ha)) (h.setByte _) hlo (hle.trans hsp')
    · rw [hlen'] at hfail
      rw [hfail.resolve_left hbase]
      rfl

/-- **Pushing the arguments** takes no page fault and stores in range, when there are less
than `MAXARG` of them. -/
theorem pushStackChecked_eq (fs : Fs) {f : Frame} (hargv : ArgvOk argv)
    (hlen : argv.length < maxArg) (h : StackPage t.mem root stackbase f) :
    pushStackChecked root stackbase (stackbase + pgSize) argv t = pushStack fs root stackbase
    (stackbase + pgSize) argv t := by
  obtain ⟨b, hrun, hres⟩ := pushArgs_eq fs argv _ [] hargv h (Nat.le_add_right stackbase pgSize)
    le_rfl
  unfold pushStackChecked pushStack
  rw [bind_apply, bind_apply, pushArgsChecked_eq fs argv hargv h (Nat.le_add_right _ _)
    (Nat.le_refl _), hrun]
  cases hargs : stackArgs stackbase argv (stackbase + pgSize) [] (t.mem.phys f).byte with
  | none => rfl
  | some x =>
    obtain ⟨sp, ustack, b'⟩ := x
    obtain ⟨rfl, hlo, hhi⟩ := hres _ hargs
    have hcount := length_ustack argv hargs
    rw [List.length_nil, Nat.zero_add] at hcount
    dsimp only [Option.map_some] at hcount hlo hhi ⊢
    have hstore : ∀ t : Task, storeUstack ustack 0 t = .ok (ustack ++ [0], t) := fun t => by
      rw [storeUstack, if_pos (by omega)]
      rfl
    rw [bind_of_ok (hstore _)]
    by_cases hbase : pushSp sp ((ustack.length + 1) * 8) < stackbase
    · rw [if_pos hbase, if_pos hbase]
    rw [if_neg hbase, if_neg hbase]
    have harray : ((ustack ++ [0]).flatMap fun w => leBytes w 8).length =
      (ustack.length + 1) * 8 := by
      rw [length_flatMap_leBytes, List.length_append, List.length_singleton]
    have hne : ((ustack ++ [0]).flatMap fun w => leBytes w 8) ≠ [] := by
      rw [← List.length_pos_iff, harray]
      omega
    have hplace := pushSp_place h.low hlo hhi (by simp only [maxArg] at hlen; omega) hbase
    rw [bind_apply, bind_apply, copyoutResident_eq fs (h.setByte _) hne
      (by rw [harray]; exact hplace)]

/-! ## `exec` -/

variable {k k' : Kernel} {i : Nat} {path : List UInt8} {fs : Fs} {tf : Frame} {own : Set Frame}

/-- The same results of the first part give the same result. -/
theorem bind_congr {σ ε α β : Type} {x : Halting σ ε α} {f g : α → Halting σ ε β} {s : σ}
    (h : ∀ a s', x s = .ok (a, s') → f a s' = g a s') : (x >>= f) s = (x >>= g) s := by
  rw [bind_apply, bind_apply]
  cases hx : x s with
  | error e => rfl
  | ok y => exact h y.1 y.2 hx

/-- A first part with the same result. -/
theorem bind_congr_left {σ ε α β : Type} {x y : Halting σ ε α} {f : α → Halting σ ε β} {s : σ}
    (h : x s = y s) : (x >>= f) s = (y >>= f) s := by
  rw [bind_apply, bind_apply, h]

/-- **The part of `exec` after the headers** takes no page fault in `copyout`. -/
theorem execStackChecked_eq (fs : Fs) {new : Frame} {ownn : Set Frame} {segs entry : Nat}
    (hargv : ArgvOk argv) (hlen : argv.length < maxArg) (hnew : UserSpace t.mem new tf ownn) :
    execStackWith pushStackChecked new (execSize segs) entry argv t = execStack fs new
    (execSize segs) entry argv t := by
  obtain ⟨hal, hsize⟩ := execStackbase_spec segs
  have hdown := pgRoundDown_of_aligned hal
  unfold execStackWith execStack
  generalize execStackbase (execSize segs) = base at hal hsize hdown ⊢
  generalize execSize segs = sz at hsize ⊢
  rw [hdown]
  refine bind_congr fun o t₁ hkal => ?_
  obtain ⟨m₁, hm₁, rfl⟩ := onMem_eq_ok.mp hkal
  rcases hnew.kalloc_holds hm₁ with ⟨rfl, -⟩ | ⟨f, rfl, hholds⟩
  · rfl
  dsimp only
  refine bind_congr fun _ t₂ hset => ?_
  obtain ⟨m₂, hm₂, rfl⟩ := onMem_eq_ok.mp hset
  cases hm₂
  refine bind_congr fun r₃ t₃ hmap => ?_
  obtain ⟨m₃, hm₃, rfl⟩ := onMem_eq_ok.mp hmap
  rcases (hholds.setPage (PhysPage.fill 0)).mapUser (Kept.refl hnew.space.owned) hnew rfl rfl hm₃ with
    ⟨rfl, -⟩ | ⟨rfl, own₃, h₃, hin⟩
  · rw [if_pos (by decide), if_pos (by decide)]
  rw [if_neg (by decide), if_neg (by decide)]
  -- the stack page is mapped
  obtain ⟨g, hg, -⟩ := hin.page
  have hstack : StackPage m₃ new base g := ⟨hal, hin.low, _, hg, rfl, rfl, rfl⟩
  have hpush := pushStackChecked_eq (t := ⟨m₃, t.p⟩) fs hargv hlen hstack
  rw [← hsize hin.low] at hpush
  exact bind_congr_left hpush

/-- **`exec` on an open executable** takes no page fault in `copyout`. -/
theorem execImageChecked_eq {ip : Nat} (hargv : ArgvOk argv) (hlen : argv.length < maxArg)
    (h : TaskOk t root tf own) :
    execImageWith pushStackChecked fs ip argv t = execImage fs ip argv t := by
  unfold execImageWith execImage
  refine bind_congr fun x t₀ hread => ?_
  obtain ⟨-, rfl⟩ := liftFs_eq_ok.mp hread
  dsimp only
  split
  · rfl
  split
  · rfl
  rw [bind_of_ok (get_apply _), bind_of_ok (get_apply _), h.trapframe]
  refine bind_congr fun o t₁ htable => ?_
  obtain ⟨m₁, hm₁, rfl⟩ := onMem_eq_ok.mp htable
  have hshared := fun a ha => h.space.not_free (a := a) ha
  rcases procPagetable_spec h.space.space.owned.nodup (fun hc => (hshared _ hc).1 rfl)
      (fun hc => (hshared _ hc).2.1 rfl) h.space.tramp_ne hm₁ with
    ⟨rfl, -⟩ | ⟨new, ownn, rfl, hnew, -⟩
  · rfl
  dsimp only
  refine bind_congr fun _ t₂ hset => ?_
  cases hset
  refine bind_congr fun ro t₃ hrec => ?_
  obtain ⟨l, through, hscan⟩ : ∃ l through, scanHdrs (fs.content ip) (ElfHdr.ofBytes x.2).phnum
      (ElfHdr.ofBytes x.2).phoff 0 = (l, through) := ⟨_, _, rfl⟩
  obtain ⟨rfl, -⟩ := recordSegs_spec _ hrec hscan
  cases ro with
  | none => rfl
  | some segEnd => exact execStackChecked_eq fs hargv hlen hnew

theorem onTask_congr {α : Type} {x y : Fs → TM α} (h : x k.fs (k.task i) = y k.fs (k.task i)) :
    onTask i x k = onTask i y k := by
  unfold onTask zoom
  rw [h]

/-- **`exec` takes no page fault in `copyout` and stores in range.** -/
theorem execChecked_eq (hargv : ArgvOk argv) (hlen : argv.length < maxArg)
    (h : TaskOk (k.task i) root tf own) : execChecked i path argv k = exec i path argv k := by
  unfold execChecked execWith exec
  refine bind_congr fun o k₀ hname => ?_
  cases o with
  | none => rfl
  | some ip =>
    refine bind_congr fun _ k₁ hlock => ?_
    have hfs := (fsOnly_namei i path _ _ _ hname).trans (fsOnly_ilockInode i ip _ _ _ hlock)
    have htask : k₁.task i = k.task i := by
      rw [Kernel.task, hfs.mem, hfs.procs]
      rfl
    have himage : onTask i (fun fs => execImageWith pushStackChecked fs ip argv) k₁ =
        onTask i (fun fs => execImage fs ip argv) k₁ := by
      apply onTask_congr
      rw [htask]
      exact execImageChecked_eq hargv hlen h
    rw [bind_apply, bind_apply, himage]

/-- **The page of the arguments**: it alone is mapped below the trap frame, for reading
and writing by the user. -/
structure StackAlone (t : Task) (stackbase : Nat) : Prop where
  aligned : stackbase % pgSize = 0
  size : t.p.sz = stackbase + pgSize
  mapped : ∃ root f, t.p.pagetable = some root ∧
    t.mem.lookup root stackbase = some ⟨true, { r := true, w := true, u := true }, f⟩ ∧
    ∀ va, va < trapframeVa → va / pgSize ≠ stackbase / pgSize → t.mem.lookup root va = none

/-- **`exec` does right by its arguments**: on success they are on the stack page and it
returns their number; it returns -1 when there is no room for them. It takes no page fault in
`copyout` and stores in range. -/
structure ArgsRight (k : Kernel) (i : Nat) (path : List UInt8) (argv : List (List UInt8)) :
    Prop where
  checked : execChecked i path argv k = exec i path argv k
  placed : ∀ r k', exec i path argv k = .ok (r, k') → 0 ≤ r → r = argv.length ∧
    (k'.procs i).tf.a1 = (k'.procs i).tf.sp ∧ ∃ stackbase args, args.map Prod.snd = argv.map cstr ∧
      StackAlone (k'.task i) stackbase ∧ ArgLayout (k'.task i) stackbase (k'.procs i).tf.sp args
  refused : ∀ r k', exec i path argv k = .ok (r, k') → ¬ ArgsFit argv → r = -1
  returns : ¬ ArgsFit argv → ExecInRange k i path argv → ∀ ip k₁, Opened k i path ip k₁ →
    HeadersRead k₁.fs ip → ∃ k', exec i path argv k = .ok (-1, k')

/-- A task with what the user sees of another one. -/
theorem exec_task {k₁ : Kernel} {t : Task} (h : FsOnly (k₁.setTask i t) k') : k'.task i = t := by
  have hp : k'.procs i = t.p := by
    rw [h.procs]
    exact Function.update_self ..
  have hm : k'.mem = t.mem := h.mem
  rw [Kernel.task, hm, hp]

/-- **The outcomes of `exec`**, for its arguments. -/
theorem exec_placed (h : SmallReachable k) (hr : (k.procs i).state = .runnable)
    (hargv : ArgvOk argv)
    (hlen : argv.length < maxArg) {r : Int} (hrun : exec i path argv k = .ok (r, k')) :
    r = -1 ∨ ArgsFit argv ∧ r = argv.length ∧ (k'.procs i).tf.a1 = (k'.procs i).tf.sp ∧
      ∃ stackbase args, args.map Prod.snd = argv.map cstr ∧
        StackAlone (k'.task i) stackbase ∧
        ArgLayout (k'.task i) stackbase (k'.procs i).tf.sp args := by
  obtain ⟨⟨own, hinv⟩, -⟩ := tablesOk_reachable h
  cases exec_spec hinv hr hargv hrun with
  | noFile => exact Or.inl rfl
  | image opened ho htf htask out closed =>
    have htask' := exec_task closed
    have hprocs : k'.procs i = (k'.task i).p := rfl
    rw [hprocs, htask']
    cases out with
    | noElf | noTable | bad | noRoom => exact Or.inl rfl
    | done elf scan base image space disjoint acts stack empty fresh mapped =>
      rename_i hdr l m' root' own' sp argc b
      refine Or.inr ?_
      have hal := stackBase_aligned l
      have hlow : stackBase l < maxVa := base.trans (by decide)
      obtain ⟨args, hsnd, hlayout⟩ := stackImage_layout hlow image
      obtain ⟨f, hf, hfb⟩ := stack
      refine ⟨?_, ?_, rfl, stackBase l, args, hsnd, ⟨hal, rfl, root', f, rfl, hf, empty⟩, ?_⟩
      · by_contra hno
        rw [(stackImage_eq_none_iff hal hlow hlen).mpr hno] at image
        cases image
      · rw [argc_of_stackImage image]
      · exact hlayout.argLayout hsnd rfl hf hfb hal base

/-- **`exec` lays out its arguments right**, for every list of less than `MAXARG` strings. -/
theorem exec_arguments (h : SmallReachable k) (hr : (k.procs i).state = .runnable)
    (hargv : ArgvOk argv) (hlen : argv.length < maxArg) : ArgsRight k i path argv where
  checked := by
    obtain ⟨⟨own, hinv⟩, -⟩ := tablesOk_reachable h
    obtain ⟨root, tf, o, -, -, -, htask⟩ := hinv.runnable hr
    exact execChecked_eq hargv hlen htask
  placed r k' hrun hok := by
    rcases exec_placed h hr hargv hlen hrun with rfl | ⟨-, hplaced⟩
    · exact absurd hok (by decide)
    · exact hplaced
  refused r k' hrun hno := by
    rcases exec_placed h hr hargv hlen hrun with hr' | ⟨hfit, -⟩
    · exact hr'
    · exact absurd hfit hno
  returns hno hrange ip k₁ hopen hread := by
    obtain ⟨r, k', hrun⟩ := (hrange.safe h hr hargv).returns ip k₁ hopen hread
    rcases exec_placed h hr hargv hlen hrun with rfl | ⟨hfit, -⟩
    · exact ⟨k', hrun⟩
    · exact absurd hfit hno

set_option maxRecDepth 100000 in
/-- A process executes its program again, with the strings `ab` and the empty one. -/
theorem exec_arguments_two : ArgsRight afterExec 0 [47, 97] [[97, 98], []] ∧
    ∃ k', exec 0 [47, 97] [[97, 98], []] afterExec = .ok (2, k') := by
  have hargv : ArgvOk [[97, 98], []] := by
    intro s hs
    simp only [List.mem_cons, List.not_mem_nil, or_false] at hs
    rcases hs with rfl | rfl <;> decide
  refine ⟨exec_arguments afterExec_reachable.small (by decide +kernel) hargv (by decide), ?_⟩
  have hrun : Halting.passes (exec 0 [47, 97] [[97, 98], []] afterExec)
    (fun r _ => decide (r = 2)) = true := by
    decide +kernel
  cases hexec : exec 0 [47, 97] [[97, 98], []] afterExec with
  | error e =>
    rw [hexec] at hrun
    cases hrun
  | ok x =>
    obtain ⟨r, k'⟩ := x
    rw [hexec] at hrun
    obtain rfl := of_decide_eq_true hrun
    exact ⟨k', rfl⟩

end Xv6
