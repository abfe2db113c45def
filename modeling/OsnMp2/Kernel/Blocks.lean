import Mathlib
import OsnMp2.Kernel.Disk
import OsnMp2.Lib.Assignment
import OsnMp2.Lib.Runs

/-!
# The owners of the blocks

A block number stands at a place of an inode: in `addrs`, or in the indirect block. The allocated
inodes and the bitmap agree when the data blocks marked used are those whose numbers stand
somewhere, each of them at one place.

While a call works on an inode, the inode's copy in memory runs ahead of the disk. The truth about
the inodes is then that on the disk with the copy in the place of this one; every part of a call
keeps the agreement of the truth with the bitmap, and `iupdate` makes the disk the truth.

## Main definitions

* `Place`, `blockAt`: the places of block numbers, and the numbers at them
* `Owned`: the inodes and the bitmap agree, and a file has the blocks of its size
* `Logged`: only data blocks have changes that are not logged
* `Consistent`, `Work`: the states between calls, and while a call works on an inode
* `OneOwner`: what holds of every state between calls

## Main results

* `itrunc_spec`: truncation frees the blocks of the inode, and no others
* `exec_safe`: every call keeps the agreement, and frees no free block
* `one_owner`: no block has two owners along every run from a consistent image
-/

namespace Xv6.Disk

variable {sb : Superblock} {T T' : Nat → Dinode} {used : Nat → Bool}
  {block block' disk disk' : Nat → Block} {st st' : State} {k k' : Slot} {i b : Nat}

/-! ## The words of a block -/

theorem le_congr {d d' : Nat → UInt8} {off off' n : Nat}
    (h : ∀ j < n, d (off + j) = d' (off' + j)) : le d off n = le d' off' n := by
  unfold le
  apply List.foldr_ext
  intro j hj acc
  rw [h j (List.mem_range.mp hj)]

@[simp] theorem word_zero (j : Nat) : word (fun _ => 0) j = 0 := by
  simp [word, le, List.range_succ]

/-- Writing an entry changes this entry only. -/
theorem word_setWord {a : Block} {j j' addr : Nat} (haddr : addr < 2 ^ 32) :
    word (setWord a j addr) j' = if j' = j then addr else word a j' := by
  unfold word setWord
  split
  · next heq =>
    subst heq
    simp [le, List.range_succ, writeAt, leBytes]
    omega
  · next hne =>
    apply le_congr
    intro l hl
    have hout : ¬ (4 * j ≤ 4 * j' + l ∧ 4 * j' + l < 4 * j + (leBytes addr 4).length) := by
      simp only [leBytes, List.length_cons, List.length_nil]
      omega
    exact if_neg hout

/-! ## The places of block numbers -/

/-- A place that may hold a block number: in `addrs`, or in the indirect block. -/
inductive Place
  | addr (inum : Nat) (x : AddrIdx)
  | entry (inum : Nat) (j : Fin nIndirect)
deriving DecidableEq

/-- The inode that a place belongs to. -/
def Place.inum : Place → Nat
  | addr inum _ | entry inum _ => inum

/-- A block number, `0` standing for none. -/
def number (b : Nat) : Option Nat := if b = 0 then none else some b

theorem number_eq_some {b c : Nat} : number b = some c ↔ b = c ∧ c ≠ 0 := by
  unfold number
  split
  · next h => simp [h, eq_comm]
  · next h =>
    rw [Option.some.injEq]
    constructor
    · rintro rfl
      exact ⟨rfl, h⟩
    · exact And.left

@[simp] theorem number_zero : number 0 = none := rfl

theorem number_of_ne (h : b ≠ 0) : number b = some b := if_neg h

/-- The block number at a place of an allocated inode. -/
def blockAt (T : Nat → Dinode) (block : Nat → Block) : Place → Option Nat
  | .addr i x => if (T i).type = .free then none else number ((T i).addrs x)
  | .entry i j =>
    if (T i).type = .free then none
    else (number ((T i).addrs indirect)).bind fun a => number (word (block a) j)

theorem blockAt_ne_zero {p : Place} (h : blockAt T block p = some b) : b ≠ 0 := by
  cases p with
  | addr i x =>
    obtain ⟨-, h⟩ := Option.ite_none_left_eq_some.mp h
    exact (number_eq_some.mp h).2
  | entry i j =>
    obtain ⟨-, h⟩ := Option.ite_none_left_eq_some.mp h
    obtain ⟨a, -, h⟩ := Option.bind_eq_some_iff.mp h
    exact (number_eq_some.mp h).2

/-- The indirect block of an inode. -/
def indirectAt (T : Nat → Dinode) (block : Nat → Block) (i : Nat) : Option Nat :=
  blockAt T block (.addr i indirect)

theorem blockAt_entry (j : Fin nIndirect) :
    blockAt T block (.entry i j) = (indirectAt T block i).bind fun a =>
    number (word (block a) j) := by
  simp only [indirectAt, blockAt]
  split <;> rfl

/-- The block number at a place depends on its inode only. -/
theorem blockAt_inum {p : Place} (h : T' p.inum = T p.inum) :
    blockAt T' block p = blockAt T block p := by
  cases p <;> simp only [Place.inum] at h <;> simp only [blockAt, h]

theorem blockAt_free {p : Place} (h : (T p.inum).type = .free) : blockAt T block p = none := by
  cases p <;> exact if_pos h

/-- The block numbers depend on the indirect blocks only. -/
theorem blockAt_congr (h : ∀ i a, indirectAt T block i = some a → block' a = block a) :
    blockAt T block' = blockAt T block := by
  funext p
  cases p with
  | addr i x => rfl
  | entry i j =>
    rw [blockAt_entry, blockAt_entry]
    show (indirectAt T block i).bind _ = _
    cases hi : indirectAt T block i with
    | none => rfl
    | some a => rw [Option.bind_some, Option.bind_some, h i a hi]

/-- The block numbers depend on the types and on `addrs` only. -/
theorem blockAt_sameAddrs (htype : ∀ i, (T' i).type = (T i).type)
    (haddrs : ∀ i, (T' i).addrs = (T i).addrs) : blockAt T' block = blockAt T block := by
  funext p
  cases p <;> simp only [blockAt, htype, haddrs]

/-- A block number that is written to a place of `addrs`; the block is a zeroed one. -/
theorem blockAt_setAddr (T : Nat → Dinode) (block : Nat → Block) {x : AddrIdx}
    (htype : (T i).type ≠ .free) (hnone : (T i).addrs x = 0) (hb : b ≠ 0)
    (hfresh : ∀ i', indirectAt T block i' ≠ some b) :
    blockAt (Function.update T i { T i with addrs := Function.update (T i).addrs x b })
        (Function.update block b fun _ => 0) =
      Function.update (blockAt T block) (.addr i x) (some b) := by
  have hsame : blockAt T (Function.update block b fun _ => 0) = blockAt T block := by
    apply blockAt_congr
    intro i' a ha
    apply Function.update_of_ne
    rintro rfl
    exact hfresh i' ha
  funext p
  by_cases hp : p.inum = i
  · subst hp
    cases p with
    | addr i y =>
      simp only [Place.inum] at *
      simp only [blockAt, Function.update_self, if_neg htype]
      by_cases hxy : y = x
      · subst hxy
        rw [Function.update_self, Function.update_self, number_of_ne hb]
      · rw [Function.update_of_ne hxy, Function.update_of_ne (by simpa using hxy)]
        simp only [blockAt, if_neg htype]
    | entry i j =>
      simp only [Place.inum] at *
      rw [Function.update_of_ne (by simp), ← hsame]
      simp only [blockAt, Function.update_self, if_neg htype]
      by_cases hx : indirect = x
      · -- the new indirect block has no entries, and there was none before
        subst hx
        rw [Function.update_self, number_of_ne hb, Option.bind_some, Function.update_self,
          word_zero, hnone]
        rfl
      · rw [Function.update_of_ne hx]
  · have hne : p ≠ .addr i x := by
      rintro rfl
      exact hp rfl
    rw [Function.update_of_ne hne, ← hsame]
    exact blockAt_inum (Function.update_of_ne hp _ _)

/-- A block number that is written to an entry of an indirect block. -/
theorem blockAt_setWord (T : Nat → Dinode) (block : Nat → Block) {a : Nat} {j : Fin nIndirect}
    (ha : indirectAt T block i = some a)
    (hb : b ≠ 0) (hlt : b < 2 ^ 32) (hother : ∀ i', indirectAt T block i' = some a → i' = i) :
    blockAt T (Function.update block a (setWord (block a) j b)) =
      Function.update (blockAt T block) (.entry i j) (some b) := by
  funext p
  cases p with
  | addr i' x =>
    rw [Function.update_of_ne (by simp)]
    rfl
  | entry i' j' =>
    rw [blockAt_entry]
    show (indirectAt T block i').bind _ = _
    by_cases hi : i' = i
    · subst hi
      rw [ha, Option.bind_some, Function.update_self, word_setWord hlt]
      by_cases hj : j' = j
      · subst hj
        rw [if_pos rfl, number_of_ne hb, Function.update_self]
      · have hval : (j' : Nat) ≠ j := fun h => hj (Fin.ext h)
        rw [if_neg hval, Function.update_of_ne (by simpa using hj), blockAt_entry, ha,
          Option.bind_some]
    · rw [Function.update_of_ne (by simpa using fun h _ => hi h), blockAt_entry]
      cases hi' : indirectAt T block i' with
      | none => rfl
      | some a' =>
        have hne : a' ≠ a := by
          rintro rfl
          exact hi (hother i' hi')
        rw [Option.bind_some, Option.bind_some, Function.update_of_ne hne]

/-! ## Agreement of the inodes with the bitmap -/

/-- A data block that is marked used. -/
def InUse (sb : Superblock) (used : Nat → Bool) (b : Nat) : Prop :=
  sb.dataStart ≤ b ∧ b < sb.size ∧ used b = true

/-- The place of the number of the `bn`-th block of an inode. -/
def filePlace (i bn : Nat) : Option Place :=
  if h : bn < nDirect then some (.addr i ⟨bn, Nat.lt_succ_of_lt h⟩)
  else if h : bn - nDirect < nIndirect then some (.entry i ⟨bn - nDirect, h⟩)
  else none

theorem filePlace_ne_indirect {bn i' : Nat} {p : Place} (h : filePlace i bn = some p) :
    p ≠ .addr i' indirect := by
  unfold filePlace at h
  split at h
  · next hlt =>
    cases h
    simp [indirect, hlt.ne]
  · split at h <;> cases h
    simp

/-- The inode has the blocks of its first `n` bytes. -/
def Filled (T : Nat → Dinode) (block : Nat → Block) (i n : Nat) : Prop :=
  ∀ bn, bn * bSize < n → ∃ p b, filePlace i bn = some p ∧ blockAt T block p = some b

theorem Filled.mono {n : Nat} (h : Filled T block i n)
    (hplaces : ∀ p b, blockAt T block p = some b → blockAt T' block' p = some b) :
    Filled T' block' i n := by
  intro bn hbn
  obtain ⟨p, b, hp, hb⟩ := h bn hbn
  exact ⟨p, b, hp, hplaces p b hb⟩

/-- The allocated inodes are in the inode blocks, the data blocks marked used are those whose
numbers they hold, each at one place, and they have the blocks of their sizes; what is in front of
the data blocks is marked used. -/
structure Owned (sb : Superblock) (T : Nat → Dinode) (used : Nat → Bool) (block : Nat → Block) :
    Prop where
  assigned : Assigned (blockAt T block) (InUse sb used)
  metadata : ∀ b < sb.dataStart, used b = true
  filled : ∀ i, (T i).type ≠ .free → Filled T block i (T i).size
  table : ∀ i, (T i).type ≠ .free → i < sb.ninodes

namespace Owned

theorem used_at (h : Owned sb T used block) {p : Place} (hp : blockAt T block p = some b) :
    used b = true :=
  (h.assigned.busy_of hp).2.2

theorem not_at (h : Owned sb T used block) (hfree : used b = false) (p : Place) :
    blockAt T block p ≠ some b := by
  intro hp
  rw [h.used_at hp] at hfree
  cases hfree

/-- A free block is a data block. -/
theorem low (h : Owned sb T used block) (hfree : used b = false) : sb.dataStart ≤ b := by
  by_contra hc
  rw [h.metadata b (Nat.lt_of_not_le hc)] at hfree
  cases hfree

/-- **A free block gets its number written to an empty place.** -/
theorem take (h : Owned sb T used block) (hhigh : b < sb.size) (hfree : used b = false) {p : Place}
    (hp : blockAt T block p = none)
    (hat : blockAt T' block' = Function.update (blockAt T block) p (some b))
    (htype : ∀ i, (T' i).type = (T i).type) (hsize : ∀ i, (T' i).size = (T i).size) :
    Owned sb T' (Function.update used b true) block' where
  assigned := by
    have hstart := h.assigned.start hp fun hb => Bool.false_ne_true (hfree.symm.trans hb.2.2)
    rw [← hat] at hstart
    apply hstart.congr
    intro c
    by_cases hc : c = b
    · subst hc
      simp [InUse, h.low hfree, hhigh]
    · simp [InUse, hc]
  metadata c hc := by
    by_cases hcb : c = b
    · rw [hcb, Function.update_self]
    · rw [Function.update_of_ne hcb]
      exact h.metadata c hc
  filled i hi := by
    rw [htype] at hi
    rw [hsize]
    apply (h.filled i hi).mono
    intro q c hq
    rw [hat, Function.update_of_ne]
    · exact hq
    · rintro rfl
      rw [hp] at hq
      cases hq
  table i hi := by
    rw [htype] at hi
    exact h.table i hi

theorem not_indirect (h : Owned sb T used block) {bn : Nat} {p : Place}
    (hp : filePlace i bn = some p)
    (hb : blockAt T block p = some b) (i' : Nat) : indirectAt T block i' ≠ some b := by
  intro hi
  exact filePlace_ne_indirect hp (h.assigned.unique p _ b hb hi)

/-- Writing a block of a file moves no block numbers. -/
theorem blockAt_write (h : Owned sb T used block) {bn : Nat} {p : Place}
    (hp : filePlace i bn = some p) (hb : blockAt T block p = some b) (a : Block) :
    blockAt T (Function.update block b a) = blockAt T block := by
  apply blockAt_congr
  intro i' c hc
  apply Function.update_of_ne
  rintro rfl
  exact h.not_indirect hp hb i' hc

theorem congr (h : Owned sb T used block) (hat : blockAt T' block' = blockAt T block)
    (htype : ∀ i, (T' i).type = (T i).type)
    (hfilled : ∀ i, (T' i).type ≠ .free → Filled T' block' i (T' i).size) :
    Owned sb T' used block' where
  assigned := by
    rw [hat]
    exact h.assigned
  metadata := h.metadata
  filled := hfilled
  table i hi := h.table i (by rwa [← htype])

theorem write (h : Owned sb T used block) {bn : Nat} {p : Place} (hp : filePlace i bn = some p)
    (hb : blockAt T block p = some b) (a : Block) :
    Owned sb T used (Function.update block b a) := by
  have hat := h.blockAt_write hp hb a
  refine h.congr hat (fun _ => rfl) fun i' hi' => ?_
  apply (h.filled i' hi').mono
  intro q c hq
  rw [hat]
  exact hq

end Owned

/-! ## What is not logged -/

/-- The indirect blocks have been logged. -/
def Logged (T : Nat → Dinode) (block disk : Nat → Block) : Prop :=
  ∀ i a, indirectAt T block i = some a → disk a = block a

/-- A zeroed block gets its number written to a place. -/
theorem Logged.take (h : Logged T block disk) {p : Place}
    (hat : blockAt T' block' = Function.update (blockAt T block) p (some b))
    (hkept : ∀ a, a = b ∨ disk a = block a → disk' a = block' a) : Logged T' block' disk' := by
  intro i a ha
  apply hkept
  unfold indirectAt at ha
  rw [hat] at ha
  by_cases hp : Place.addr i indirect = p
  · rw [hp, Function.update_self] at ha
    exact Or.inl (Option.some.inj ha).symm
  · rw [Function.update_of_ne hp] at ha
    exact Or.inr (h i a ha)

/-- A block that is none of the indirect ones changes, with or without a `log_write`. -/
theorem Logged.write (h : Logged T block disk) (hdata : ∀ i, indirectAt T block i ≠ some b)
    (a : Block)
    (hdisk : ∀ c, c ≠ b → disk' c = disk c) : Logged T (Function.update block b a) disk' := by
  intro i c hc
  have hne : c ≠ b := by
    rintro rfl
    exact hdata i hc
  rw [Function.update_of_ne hne, hdisk c hne]
  exact h i c hc

/-- An inode loses its blocks, or gets none. -/
theorem Logged.clear (h : Logged T block disk) {d : Dinode} (haddrs : d.addrs indirect = 0) :
    Logged (Function.update T i d) block disk := by
  intro i' a ha
  apply h i' a
  by_cases hi : i' = i
  · subst hi
    simp [indirectAt, blockAt, haddrs] at ha
  · have hsame : blockAt (Function.update T i d) block (.addr i' indirect) = _ :=
      blockAt_inum (Function.update_of_ne hi d T)
    exact hsame.symm.trans ha

theorem Logged.congr (h : Logged T block disk) (hat : blockAt T' block = blockAt T block) :
    Logged T' block disk := fun i a ha => h i a ((congrFun hat _).symm.trans ha)

/-! ## The states of a run -/

/-- The inodes, with the one at `k` as it is in memory. -/
def State.truth (st : State) (k : Slot) : Nat → Dinode :=
  Function.update st.dinode (st.inode k).inum (st.inode k).dinode

@[simp] theorem truth_self : st.truth k (st.inode k).inum = (st.inode k).dinode :=
  Function.update_self ..

theorem truth_setInode {ip : Inode} (h : ip.inum = (st.inode k).inum) :
    (st.setInode k ip).truth k = Function.update (st.truth k) (st.inode k).inum ip.dinode := by
  unfold State.truth
  rw [setInode_self, Function.update_idem, h]
  rfl

/-- A copy that counts is that of an allocated inode, as it is on the disk. -/
def State.Synced (st : State) (k : Slot) : Prop :=
  0 < (st.inode k).ref → (st.inode k).valid = true →
    (st.inode k).dinode = st.dinode (st.inode k).inum ∧ (st.inode k).dinode.type ≠ .free

/-- No inode is twice in the table. -/
def Distinct (inode : Slot → Inode) : Prop :=
  ∀ k k', 0 < (inode k).ref → 0 < (inode k').ref → (inode k).inum = (inode k').inum → k = k'

/-- A reference to an inode that has been read from the disk. -/
def State.Held (st : State) (k : Slot) : Prop := 0 < (st.inode k).ref ∧ (st.inode k).valid = true

/-- The state between calls. -/
structure Consistent (st : State) : Prop where
  owned : Owned st.sb st.dinode st.used st.block
  logged : Logged st.dinode st.block st.disk
  synced : ∀ k, st.Synced k
  distinct : Distinct st.inode

/-- The state while a call works on the inode at `k`. -/
structure Work (k : Slot) (st : State) : Prop where
  held : st.Held k
  type : (st.inode k).dinode.type ≠ .free
  owned : Owned st.sb (st.truth k) st.used st.block
  logged : Logged (st.truth k) st.block st.disk
  synced : ∀ k', k' ≠ k → st.Synced k'
  distinct : Distinct st.inode

theorem Consistent.truth (h : Consistent st) (hk : st.Held k) : st.truth k = st.dinode := by
  unfold State.truth
  rw [(h.synced k hk.1 hk.2).1, Function.update_eq_self]

theorem Consistent.work (h : Consistent st) (hk : st.Held k) : Work k st where
  held := hk
  type := (h.synced k hk.1 hk.2).2
  owned := by
    rw [h.truth hk]
    exact h.owned
  logged := by
    rw [h.truth hk]
    exact h.logged
  synced k' _ := h.synced k'
  distinct := h.distinct

theorem Distinct.change {inode : Slot → Inode} (h : Distinct inode) (ip : Inode)
    (hinum : ip.inum = (inode k).inum) (href : 0 < ip.ref → 0 < (inode k).ref) :
    Distinct (Function.update inode k ip) := by
  have hall : ∀ k', (Function.update inode k ip k').inum = (inode k').inum ∧
      (0 < (Function.update inode k ip k').ref → 0 < (inode k').ref) := by
    intro k'
    by_cases hk' : k' = k
    · subst hk'
      rw [Function.update_self]
      exact ⟨hinum, href⟩
    · rw [Function.update_of_ne hk']
      exact ⟨rfl, id⟩
  intro k₁ k₂ h₁ h₂ heq
  rw [(hall k₁).1, (hall k₂).1] at heq
  exact h k₁ k₂ ((hall k₁).2 h₁) ((hall k₂).2 h₂) heq

/-- The copy of the inode changes, and the bitmap and the blocks do. -/
theorem Work.change (h : Work k st) {d : Dinode} {used' : Nat → Bool} (htype : d.type ≠ .free)
    (howned : Owned st.sb (Function.update (st.truth k) (st.inode k).inum d) used' block')
    (hlogged : Logged (Function.update (st.truth k) (st.inode k).inum d) block' disk') :
    Work k ({ st with used := used', block := block', disk := disk' }.setInode k
      { st.inode k with dinode := d }) where
  held := by
    unfold State.Held
    rw [setInode_self]
    exact h.held
  type := by
    rw [setInode_self]
    exact htype
  owned := by
    unfold State.truth
    rw [setInode_self]
    unfold State.truth at howned
    rw [Function.update_idem] at howned
    exact howned
  logged := by
    unfold State.truth
    rw [setInode_self]
    unfold State.truth at hlogged
    rw [Function.update_idem] at hlogged
    exact hlogged
  synced k' hk' := by
    unfold State.Synced
    rw [setInode_of_ne _ _ _ hk']
    exact h.synced k' hk'
  distinct := h.distinct.change _ rfl id

/-- The bitmap and the blocks change. -/
theorem Work.blocks (h : Work k st) {used' : Nat → Bool}
    (howned : Owned st.sb (st.truth k) used' block') (hlogged : Logged (st.truth k) block' disk') :
    Work k { st with used := used', block := block', disk := disk' } :=
  ⟨h.held, h.type, howned, hlogged, h.synced, h.distinct⟩

/-- **`iupdate` makes the disk the truth.** -/
theorem Work.iupdate (h : Work k st) : Consistent { st with dinode := st.truth k } where
  owned := h.owned
  logged := h.logged
  synced k' href hvalid := by
    by_cases hk' : k' = k
    · subst hk'
      exact ⟨(truth_self : st.truth k' _ = _).symm, h.type⟩
    · have hne : (st.inode k').inum ≠ (st.inode k).inum := by
        intro heq
        exact hk' (h.distinct k' k href h.held.1 heq)
      obtain ⟨hcopy, htype⟩ := h.synced k' hk' href hvalid
      refine ⟨?_, htype⟩
      show (st.inode k').dinode = Function.update st.dinode _ _ _
      rw [Function.update_of_ne hne]
      exact hcopy
  distinct := h.distinct

/-! ## Allocation -/

theorem getInode_apply (k : Slot) (st : State) : getInode k st = .ok (st.inode k, st) := rfl

theorem updInode_apply (k : Slot) (f : Inode → Inode) (st : State) :
    updInode k f st = .ok ((), st.setInode k (f (st.inode k))) := rfl

theorem updBlock_apply (b : Nat) (f : Block → Block) (st : State) :
    updBlock b f st = .ok ((), { st with
      block := Function.update st.block b (f (st.block b))
      disk := Function.update st.disk b (f (st.block b)) }) := rfl

theorem updBuffer_apply (b : Nat) (f : Block → Block) (st : State) :
    updBuffer b f st = .ok ((), { st with block := Function.update st.block b (f (st.block b)) }) :=
  rfl

/-- A block that is taken is zeroed in the cache and on the disk. -/
theorem give_logged {a : Nat} (h : a = b ∨ st.disk a = st.block a) :
    (st.give b).disk a = (st.give b).block a := by
  unfold State.give
  by_cases hab : a = b
  · simp [hab]
  · simp [hab, h.resolve_left hab]

/-- `balloc` finds no block, or takes a free one. -/
theorem balloc_cases (st : State) :
    balloc st = .ok (0, st) ∨ ∃ b < st.sb.size, st.used b = false ∧
    balloc st = .ok (b, st.give b) := by
  unfold balloc
  rw [Halting.bind_of_ok (Halting.get_apply st)]
  cases hfree : st.freeBlock with
  | none => exact Or.inl rfl
  | some b =>
    have hunused := List.find?_some hfree
    have hmem := List.mem_of_find?_eq_some hfree
    rw [Bool.not_eq_true'] at hunused
    exact Or.inr ⟨b, List.mem_range.mp hmem, hunused, rfl⟩

/-- The calls keep the size, and the block numbers that there are. -/
structure Grown (k : Slot) (st st' : State) : Prop where
  inum : (st'.inode k).inum = (st.inode k).inum
  size : (st'.inode k).dinode.size = (st.inode k).dinode.size
  places : ∀ p b, blockAt (st.truth k) st.block p = some b →
    blockAt (st'.truth k) st'.block p = some b

theorem Grown.refl (k : Slot) (st : State) : Grown k st st := ⟨rfl, rfl, fun _ _ h => h⟩

theorem Grown.trans {st'' : State} (h : Grown k st st') (h' : Grown k st' st'') : Grown k st st'' :=
  ⟨h'.inum.trans h.inum, h'.size.trans h.size, fun p b hp => h'.places p b (h.places p b hp)⟩

theorem Work.pos (h : Work k st) (hfree : st.used b = false) : b ≠ 0 := by
  rintro rfl
  rw [h.owned.metadata 0 (Nat.succ_pos _)] at hfree
  cases hfree

/-- The block number at a place of `addrs`. -/
theorem Work.blockAt_addr (h : Work k st) (x : AddrIdx) :
    blockAt (st.truth k) st.block (.addr (st.inode k).inum x) =
    number ((st.inode k).dinode.addrs x) := by
  simp only [blockAt, truth_self, if_neg h.type]

theorem Work.indirectAt (h : Work k st) :
    indirectAt (st.truth k) st.block (st.inode k).inum =
    number ((st.inode k).dinode.addrs indirect) :=
  h.blockAt_addr indirect

theorem places_of_update {p : Place} (hnone : blockAt T block p = none)
    (hat : blockAt T' block' = Function.update (blockAt T block) p (some b)) :
    ∀ q c, blockAt T block q = some c → blockAt T' block' q = some c := by
  intro q c hq
  rw [hat, Function.update_of_ne]
  · exact hq
  · rintro rfl
    rw [hnone] at hq
    cases hq

/-- What `bmap` and its parts do: they return a block that the inode has at the place, or none. -/
structure Mapped (k : Slot) (st : State) (p : Place) (a : Nat) (st' : State) : Prop where
  work : Work k st'
  grown : Grown k st st'
  at_place : a ≠ 0 → blockAt (st'.truth k) st'.block p = some a

theorem slotBlock_of_ne {x : AddrIdx} (hne : (st.inode k).dinode.addrs x ≠ 0) :
    slotBlock k x st = .ok ((st.inode k).dinode.addrs x, st) := by
  unfold slotBlock
  rw [Halting.bind_of_ok (getInode_apply k st), if_pos hne]
  rfl

/-- A place of `addrs` gets a free block. -/
theorem Work.takeAddr (h : Work k st) {x : AddrIdx} (hzero : (st.inode k).dinode.addrs x = 0)
    (hlt : b < st.sb.size) (hfree : st.used b = false) :
    Mapped k st (.addr (st.inode k).inum x) b ((st.give b).setInode k
      { st.inode k with dinode :=
        { (st.inode k).dinode with addrs := Function.update (st.inode k).dinode.addrs x b } }) := by
  have hnone : blockAt (st.truth k) st.block (.addr (st.inode k).inum x) = none := by
    rw [h.blockAt_addr, hzero, number_zero]
  have hself : st.truth k (st.inode k).inum = (st.inode k).dinode := truth_self
  have hat := blockAt_setAddr (st.truth k) st.block (x := x) (b := b)
    (by rw [hself]; exact h.type) (by rw [hself]; exact hzero) (h.pos hfree)
    fun i' => h.owned.not_at hfree _
  rw [hself] at hat
  have howned := h.owned.take hlt hfree hnone hat
    (fun i => by by_cases hi : i = (st.inode k).inum <;> simp [hi])
    (fun i => by by_cases hi : i = (st.inode k).inum <;> simp [hi])
  have hlogged := h.logged.take hat fun _ => give_logged
  refine ⟨h.change h.type howned hlogged, ⟨?_, ?_, ?_⟩, fun _ => ?_⟩
  · rw [setInode_self]
  · rw [setInode_self]
  · rw [truth_setInode]
    · exact places_of_update hnone hat
    · rfl
  · rw [truth_setInode]
    · exact (congrFun hat _).trans (Function.update_self ..)
    · rfl

theorem slotBlock_spec (h : Work k st) (x : AddrIdx) :
    ∃ a st', slotBlock k x st = .ok (a, st') ∧ Mapped k st (.addr (st.inode k).inum x) a st' := by
  by_cases hne : (st.inode k).dinode.addrs x ≠ 0
  · refine ⟨_, st, slotBlock_of_ne hne, h, Grown.refl k st, fun _ => ?_⟩
    rw [h.blockAt_addr, number_of_ne hne]
  · unfold slotBlock
    rw [Halting.bind_of_ok (getInode_apply k st), if_neg hne]
    rcases balloc_cases st with hfull | ⟨b, hlt, hfree, hb⟩
    · rw [Halting.bind_of_ok hfull, if_pos rfl]
      exact ⟨0, st, rfl, h, Grown.refl k st, fun hc => absurd rfl hc⟩
    · rw [Halting.bind_of_ok hb, if_neg (h.pos hfree)]
      exact ⟨b, _, rfl, h.takeAddr (not_not.mp hne) hlt hfree⟩

/-- An entry of the indirect block gets a free block. -/
theorem Work.takeEntry (h : Work k st) {a : Nat} {j : Fin nIndirect}
    (ha : Disk.indirectAt (st.truth k) st.block (st.inode k).inum = some a)
    (hzero : word (st.block a) j = 0) (hlt : b < st.sb.size) (hfree : st.used b = false) :
    Mapped k st (.entry (st.inode k).inum j) b
      { st.give b with
        block := Function.update (st.give b).block a (setWord ((st.give b).block a) j b)
        disk := Function.update (st.give b).disk a (setWord ((st.give b).block a) j b) } := by
  have hnone : blockAt (st.truth k) st.block (.entry (st.inode k).inum j) = none := by
    rw [blockAt_entry, ha, Option.bind_some, hzero, number_zero]
  -- the new block is not an indirect one
  have hkept : blockAt (st.truth k) (st.give b).block = blockAt (st.truth k) st.block := by
    apply blockAt_congr
    intro i' c hc
    apply Function.update_of_ne
    rintro rfl
    exact h.owned.not_at hfree _ hc
  have hsize := st.sb.size_lt
  have hat := blockAt_setWord (st.truth k) (st.give b).block (j := j) (b := b)
    ((congrFun hkept _).trans ha) (h.pos hfree) (by omega) fun i' hi' => by
      have heq := h.owned.assigned.unique _ _ a ((congrFun hkept _).symm.trans hi') ha
      cases heq
      rfl
  rw [hkept] at hat
  have howned := h.owned.take hlt hfree hnone hat (fun _ => rfl) fun _ => rfl
  have hlogged : Logged (st.truth k) _
      (Function.update (st.give b).disk a (setWord ((st.give b).block a) j b)) :=
    h.logged.take hat fun c hc => by
      by_cases hca : c = a
      · rw [hca, Function.update_self, Function.update_self]
      · rw [Function.update_of_ne hca, Function.update_of_ne hca]
        exact give_logged hc
  refine ⟨h.blocks howned hlogged, ⟨rfl, rfl, ?_⟩, fun _ => ?_⟩
  · exact places_of_update hnone hat
  · exact (congrFun hat _).trans (Function.update_self ..)

theorem filePlace_direct {bn : Nat} (h : bn < nDirect) :
    filePlace i bn = some (.addr i ⟨bn, Nat.lt_succ_of_lt h⟩) := by
  unfold filePlace
  rw [dif_pos h]

theorem filePlace_entry {bn : Nat} (h : ¬ bn < nDirect) (h' : bn - nDirect < nIndirect) :
    filePlace i bn = some (.entry i ⟨bn - nDirect, h'⟩) := by
  unfold filePlace
  rw [dif_neg h, dif_pos h']

theorem bmap_spec (h : Work k st) (bn : Nat) :
    bmap k bn st = .error .outOfRange ∨ ∃ p a st', filePlace (st.inode k).inum bn = some p ∧
      bmap k bn st = .ok (a, st') ∧ Mapped k st p a st' := by
  unfold bmap
  by_cases hdirect : bn < nDirect
  · rw [dif_pos hdirect]
    obtain ⟨a, st', hrun, hm⟩ := slotBlock_spec h ⟨bn, Nat.lt_succ_of_lt hdirect⟩
    exact Or.inr ⟨_, a, st', filePlace_direct hdirect, hrun, hm⟩
  rw [dif_neg hdirect]
  by_cases hentry : bn - nDirect < nIndirect
  · rw [if_pos hentry]
    refine Or.inr ⟨.entry (st.inode k).inum ⟨bn - nDirect, hentry⟩, ?_⟩
    obtain ⟨addr, st₁, hrun, hm⟩ := slotBlock_spec h indirect
    rw [Halting.bind_of_ok hrun]
    by_cases haddr : addr = 0
    · rw [if_pos haddr]
      exact ⟨0, st₁, filePlace_entry hdirect hentry, rfl, hm.work, hm.grown,
        fun hc => absurd rfl hc⟩
    rw [if_neg haddr, Halting.bind_of_ok (Halting.get_apply st₁)]
    have hat := hm.at_place haddr
    rw [← hm.grown.inum] at hat
    by_cases hword : word (st₁.block addr) (bn - nDirect) ≠ 0
    · rw [if_pos hword]
      refine ⟨_, st₁, filePlace_entry hdirect hentry, rfl, hm.work, hm.grown, fun _ => ?_⟩
      rw [← hm.grown.inum, blockAt_entry]
      unfold Disk.indirectAt
      rw [hat, Option.bind_some, number_of_ne hword]
    · rw [if_neg hword]
      rcases balloc_cases st₁ with hfull | ⟨b, hlt, hfree, hb⟩
      · rw [Halting.bind_of_ok hfull, if_pos rfl]
        exact ⟨0, st₁, filePlace_entry hdirect hentry, rfl, hm.work, hm.grown,
          fun hc => absurd rfl hc⟩
      · rw [Halting.bind_of_ok hb, if_neg (hm.work.pos hfree)]
        have hm' := hm.work.takeEntry (j := ⟨bn - nDirect, hentry⟩) hat (not_not.mp hword) hlt hfree
        rw [hm.grown.inum] at hm'
        exact ⟨b, _, filePlace_entry hdirect hentry, rfl, hm'.work, hm.grown.trans hm'.grown,
          hm'.at_place⟩
  · rw [if_neg hentry]
    exact Or.inl rfl

/-- A block that there is already is found, and nothing changes. -/
theorem bmap_of_filled (h : Work k st) {bn : Nat} {p : Place}
    (hp : filePlace (st.inode k).inum bn = some p)
    (hb : blockAt (st.truth k) st.block p = some b) : bmap k bn st = .ok (b, st) := by
  have hne := blockAt_ne_zero hb
  unfold filePlace at hp
  unfold bmap
  split at hp
  · next hdirect =>
    cases hp
    rw [h.blockAt_addr] at hb
    obtain ⟨heq, -⟩ := number_eq_some.mp hb
    rw [dif_pos hdirect, ← heq]
    apply slotBlock_of_ne
    rw [heq]
    exact hne
  · next hdirect =>
    rw [dif_neg hdirect]
    split at hp
    · next hentry =>
      cases hp
      rw [blockAt_entry, h.indirectAt] at hb
      obtain ⟨a, ha, hb⟩ := Option.bind_eq_some_iff.mp hb
      obtain ⟨heq, hane⟩ := number_eq_some.mp ha
      obtain ⟨hword, -⟩ := number_eq_some.mp hb
      have hrun : slotBlock k indirect st = .ok (a, st) := by
        rw [← heq]
        apply slotBlock_of_ne
        rw [heq]
        exact hane
      rw [if_pos hentry, Halting.bind_of_ok hrun, if_neg hane,
        Halting.bind_of_ok (Halting.get_apply st), if_pos (by rw [hword]; exact hne), hword]
      rfl
    · cases hp

/-! ## Reading and writing -/

theorem chunk_pos {n tot : Nat} (off : Nat) (h : tot < n) :
    0 < (n - tot).min (bSize - off % bSize) := by
  have hmod := Nat.mod_lt off (by decide : 0 < bSize)
  exact Nat.lt_min.mpr ⟨by omega, by omega⟩

theorem readLoop_ok {fault : Option Nat} {n : Nat} (h : Work k st) (turns tot off : Nat)
    (hsize : off + (n - tot) ≤ (st.inode k).dinode.size) :
    ∃ r, readLoop k fault n turns tot off st = .ok (r, st) := by
  induction turns generalizing tot off with
  | zero => exact ⟨_, rfl⟩
  | succ turns ih =>
    unfold readLoop
    split
    · next hlt =>
      -- the block is one of those that hold the first `size` bytes
      have hdiv := Nat.div_mul_le_self off bSize
      have hfilled := h.owned.filled (st.inode k).inum (by rw [truth_self]; exact h.type)
      rw [truth_self] at hfilled
      obtain ⟨p, b, hp, hb⟩ := hfilled (off / bSize) (by omega)
      rw [Halting.bind_of_ok (bmap_of_filled h hp hb), if_neg (blockAt_ne_zero hb)]
      rw [Halting.bind_of_ok (Halting.get_apply st)]
      split
      · exact ⟨_, rfl⟩
      · have hm : (n - tot).min (bSize - off % bSize) ≤ n - tot := Nat.min_le_left ..
        obtain ⟨r, hr⟩ := ih (tot + (n - tot).min (bSize - off % bSize))
          (off + (n - tot).min (bSize - off % bSize)) (by omega)
        rw [Halting.bind_of_ok hr]
        exact ⟨_, rfl⟩
    · exact ⟨_, rfl⟩

/-- **Reading changes nothing**: a file has the blocks of its size. -/
theorem readi_ok (h : Work k st) (fault : Option Nat) (off n : Nat) :
    ∃ r, readi k fault off n st = .ok (r, st) := by
  unfold readi
  rw [Halting.bind_of_ok (getInode_apply k st)]
  split
  · exact ⟨_, rfl⟩
  · apply readLoop_ok h
    split <;> omega

/-- A block of the inode changes, with or without a `log_write`. -/
theorem Work.write (h : Work k st) {bn : Nat} {p : Place}
    (hp : filePlace (st.inode k).inum bn = some p) (hb : blockAt (st.truth k) st.block p = some b)
    (a : Block) (hdisk : ∀ c, c ≠ b → disk' c = st.disk c) :
    Work k { st with block := Function.update st.block b a, disk := disk' } :=
  h.blocks (h.owned.write hp hb a)
    (h.logged.write (h.owned.not_indirect hp hb) a hdisk)

/-- The loop of `writei` keeps the inode filled up to the offset. -/
theorem writeLoop_spec (fault : Option Nat) (src : List UInt8) (turns tot off : Nat) (h : Work k st)
    (hfilled : Filled (st.truth k) st.block (st.inode k).inum off) :
    writeLoop k fault src turns tot off st = .error .outOfRange ∨ ∃ tot' off' st',
      writeLoop k fault src turns tot off st = .ok ((tot', off'), st') ∧ Work k st' ∧
      Filled (st'.truth k) st'.block (st'.inode k).inum off' := by
  induction turns generalizing tot off st with
  | zero => exact Or.inr ⟨tot, off, st, rfl, h, hfilled⟩
  | succ turns ih =>
    unfold writeLoop
    split
    · next hlt =>
      rcases bmap_spec h (off / bSize) with herr | ⟨p, addr, st₁, hp, hrun, hm⟩
      · exact Or.inl (Halting.bind_eq_error.mpr (Or.inl herr))
      rw [Halting.bind_of_ok hrun]
      have hfilled₁ : Filled (st₁.truth k) st₁.block (st₁.inode k).inum off := by
        rw [hm.grown.inum]
        exact hfilled.mono hm.grown.places
      split
      · exact Or.inr ⟨tot, off, st₁, rfl, hm.work, hfilled₁⟩
      · next haddr =>
        have hat := hm.at_place haddr
        rw [← hm.grown.inum] at hp
        -- the bytes go to a block that holds no block numbers
        have hkept := hm.work.owned.blockAt_write hp hat (writeAt (st₁.block addr) (off % bSize)
          ((src.take (copied fault (tot + (src.length - tot).min (bSize - off % bSize)))).drop tot))
        dsimp only
        split
        · rw [Halting.bind_of_ok (updBuffer_apply _ _ st₁)]
          refine Or.inr ⟨tot, off, _, rfl, hm.work.write hp hat _ fun _ _ => rfl,
            hfilled₁.mono fun q c hq => ?_⟩
          exact (congrFun hkept q).trans hq
        · rw [Halting.bind_of_ok (updBlock_apply _ _ st₁)]
          apply ih
          · exact hm.work.write hp hat _ fun c hc => Function.update_of_ne hc ..
          · intro bn hbn
            by_cases hold : bn * bSize < off
            · obtain ⟨q, c, hq, hc⟩ := hfilled₁ bn hold
              exact ⟨q, c, hq, (congrFun hkept q).trans hc⟩
            · have hbneq : bn = off / bSize := by
                have hmin : (src.length - tot).min (bSize - off % bSize) ≤ bSize - off % bSize :=
                  Nat.min_le_right ..
                simp only [bSize] at *
                omega
              rw [hbneq]
              exact ⟨p, addr, hp, (congrFun hkept p).trans hat⟩
    · exact Or.inr ⟨tot, off, st, rfl, h, hfilled⟩

/-- Fields of the inode change that the blocks do not depend on. -/
theorem Work.setFields (h : Work k st) {d : Dinode} (htype : d.type = (st.inode k).dinode.type)
    (haddrs : d.addrs = (st.inode k).dinode.addrs)
    (hfilled : Filled (st.truth k) st.block (st.inode k).inum d.size) :
    Work k (st.setInode k { st.inode k with dinode := d }) := by
  have hat : blockAt (Function.update (st.truth k) (st.inode k).inum d) st.block =
      blockAt (st.truth k) st.block := by
    apply blockAt_sameAddrs
    all_goals
      intro i
      by_cases hi : i = (st.inode k).inum <;> simp [hi, htype, haddrs]
  refine h.change (by rw [htype]; exact h.type) (h.owned.congr hat ?_ ?_) (h.logged.congr hat)
  · intro i
    by_cases hi : i = (st.inode k).inum <;> simp [hi, htype]
  · intro i hi bn hbn
    rw [hat]
    by_cases hik : i = (st.inode k).inum
    · subst hik
      rw [Function.update_self] at hbn
      exact hfilled bn hbn
    · rw [Function.update_of_ne hik] at hi hbn
      exact h.owned.filled i hi bn hbn

theorem iupdate_apply (k : Slot) (st : State) :
    iupdate k st = .ok ((), { st with dinode := st.truth k }) := rfl

theorem Work.filled (h : Work k st) :
    Filled (st.truth k) st.block (st.inode k).inum (st.inode k).dinode.size := by
  have hfilled := h.owned.filled (st.inode k).inum (by rw [truth_self]; exact h.type)
  rwa [truth_self] at hfilled

/-- **Writing keeps the agreement**, however much of it is done. -/
theorem writei_spec (h : Work k st) (hcons : Consistent st) (fault : Option Nat) (src : List UInt8)
    (off : Nat) : writei k fault src off st = .error .outOfRange ∨
      ∃ n st', writei k fault src off st = .ok (n, st') ∧ Consistent st' := by
  unfold writei
  rw [Halting.bind_of_ok (getInode_apply k st)]
  split
  · exact Or.inr ⟨_, st, rfl, hcons⟩
  split
  · exact Or.inr ⟨_, st, rfl, hcons⟩
  next hin _ =>
  have hfilled : Filled (st.truth k) st.block (st.inode k).inum off := by
    intro bn hbn
    exact h.filled bn (by omega)
  rcases writeLoop_spec fault src src.length 0 off h hfilled with
    herr | ⟨tot, off', st₁, hrun, hwork, hfilled₁⟩
  · exact Or.inl (Halting.bind_eq_error.mpr (Or.inl herr))
  rw [Halting.bind_of_ok hrun]
  by_cases hgrow : (st₁.inode k).dinode.size < off'
  · have hset := hwork.setFields (d := { (st₁.inode k).dinode with size := off' }) rfl rfl hfilled₁
    refine Or.inr ⟨tot, _, ?_, hset.iupdate⟩
    dsimp only
    rw [Halting.bind_of_ok (updInode_apply _ _ st₁), if_pos hgrow]
    rfl
  · refine Or.inr ⟨tot, _, ?_, hwork.iupdate⟩
    dsimp only
    rw [Halting.bind_of_ok (updInode_apply _ _ st₁), if_neg hgrow]
    simp only [State.setInode, Function.update_eq_self]
    rfl

/-! ## Truncation -/

/-- The blocks that satisfy `B` are freed, and no others. -/
def Freed (used used' : Nat → Bool) (B : Nat → Prop) : Prop :=
  ∀ b, used' b = true ↔ used b = true ∧ ¬ B b

theorem Freed.trans {used used₁ used₂ : Nat → Bool} {B B' C : Nat → Prop} (h : Freed used used₁ B)
    (h' : Freed used₁ used₂ B') (hc : ∀ b, C b ↔ B b ∨ B' b) : Freed used used₂ C := by
  intro b
  rw [h' b, h b, hc, not_or, and_assoc]

theorem Freed.congr {used used' : Nat → Bool} {B C : Nat → Prop} (h : Freed used used' B)
    (hc : ∀ b, C b ↔ B b) : Freed used used' C := by
  intro b
  rw [h b, hc]

theorem freed_none {B : Nat → Prop} (h : ∀ b, ¬ B b) : Freed used used B :=
  fun b => ⟨fun hb => ⟨hb, h b⟩, And.left⟩

theorem Freed.still {used used' : Nat → Bool} {B : Nat → Prop} (h : Freed used used' B)
    (hb : used b = true) (hnot : ¬ B b) : used' b = true := (h b).mpr ⟨hb, hnot⟩

theorem freed_update (b : Nat) : Freed used (Function.update used b false) (· = b) := by
  intro c
  by_cases hc : c = b
  · simp [hc]
  · simp [hc]

/-- The blocks whose numbers a list of places holds. -/
theorem numbers_cons {ι : Type} {f : ι → Nat} {x : ι} {xs : List ι} {b : Nat} :
    (b ≠ 0 ∧ ∃ y ∈ x :: xs, f y = b) ↔ (b ≠ 0 ∧ f x = b) ∨ (b ≠ 0 ∧ ∃ y ∈ xs, f y = b) := by
  simp [and_or_left]

/-- `bfree` frees a block that is marked used. -/
theorem bfree_spec (h : st.used b = true) :
    bfree b st = .ok ((), { st with used := Function.update st.used b false }) := by
  unfold bfree
  rw [Halting.bind_of_ok (Halting.get_apply st), if_pos h]
  rfl

theorem freed_number {c : Nat} (hc : c ≠ 0) :
    Freed used (Function.update used c false) fun b => b ≠ 0 ∧ c = b := by
  apply (freed_update c).congr
  intro b
  constructor
  · exact fun h => h.2.symm
  · rintro rfl
    exact ⟨hc, rfl⟩

theorem truncEntry_spec (a : Block) (j : Nat) (hused : word a j ≠ 0 → st.used (word a j) = true) :
    ∃ used', truncEntry a j st = .ok ((), { st with used := used' }) ∧
      Freed st.used used' fun b => b ≠ 0 ∧ word a j = b := by
  unfold truncEntry
  by_cases hzero : word a j ≠ 0
  · rw [if_pos hzero, bfree_spec (hused hzero)]
    exact ⟨_, rfl, freed_number hzero⟩
  · rw [if_neg hzero]
    refine ⟨st.used, rfl, freed_none fun b => ?_⟩
    rintro ⟨hb, rfl⟩
    exact hzero hb

/-- The loop over the entries frees the blocks of the entries, which are different ones. -/
theorem truncEntries_spec (st : State) {a : Block} (js : List Nat) (hnodup : js.Nodup)
    (hused : ∀ j ∈ js, word a j ≠ 0 → st.used (word a j) = true)
    (hinj : ∀ j ∈ js, ∀ j' ∈ js, word a j ≠ 0 → word a j = word a j' → j = j') :
    ∃ used', truncEntries a js st = .ok ((), { st with used := used' }) ∧
      Freed st.used used' fun b => b ≠ 0 ∧ ∃ j ∈ js, word a j = b := by
  induction js generalizing st with
  | nil => exact ⟨st.used, rfl, freed_none (by simp)⟩
  | cons j js ih =>
    obtain ⟨hnot, hnodup⟩ := List.nodup_cons.mp hnodup
    obtain ⟨used₁, hrun, hfreed⟩ := truncEntry_spec a j (hused j List.mem_cons_self)
    unfold truncEntries
    rw [Halting.bind_of_ok hrun]
    have hused' : ∀ j' ∈ js, word a j' ≠ 0 → used₁ (word a j') = true := by
      intro j' hj' hne
      apply hfreed.still (hused j' (List.mem_cons_of_mem j hj') hne)
      rintro ⟨-, heq⟩
      rw [hinj j' (List.mem_cons_of_mem j hj') j List.mem_cons_self hne heq.symm] at hj'
      exact hnot hj'
    obtain ⟨used', hrun', hfreed'⟩ := ih { st with used := used₁ } hnodup hused'
      fun j₁ h₁ j₂ h₂ => hinj j₁ (List.mem_cons_of_mem j h₁) j₂ (List.mem_cons_of_mem j h₂)
    exact ⟨used', hrun', hfreed.trans hfreed' fun b => numbers_cons⟩

/-- The state with a bitmap, and the copy at `k` with other block numbers. -/
def State.setAddrs (st : State) (k : Slot) (used' : Nat → Bool) (addrs : AddrIdx → Nat) : State :=
  { st with used := used' }.setInode k
    { st.inode k with dinode := { (st.inode k).dinode with addrs := addrs } }

theorem setAddrs_self (st : State) (k : Slot) :
    st.setAddrs k st.used (st.inode k).dinode.addrs = st := by
  unfold State.setAddrs State.setInode
  rw [Function.update_eq_self]

theorem setAddrs_setAddrs (used₁ used₂ : Nat → Bool) (f g : AddrIdx → Nat) :
    (st.setAddrs k used₁ f).setAddrs k used₂ g = st.setAddrs k used₂ g := by
  unfold State.setAddrs State.setInode
  simp only [Function.update_self, Function.update_idem]

@[simp] theorem setAddrs_used (used' : Nat → Bool) (f : AddrIdx → Nat) :
    (st.setAddrs k used' f).used = used' := rfl

@[simp] theorem setAddrs_block (used' : Nat → Bool) (f : AddrIdx → Nat) :
    (st.setAddrs k used' f).block = st.block := rfl

@[simp] theorem setAddrs_addrs (used' : Nat → Bool) (f : AddrIdx → Nat) :
    ((st.setAddrs k used' f).inode k).dinode.addrs = f := by
  unfold State.setAddrs
  rw [setInode_self]

theorem truncAddr_spec (st : State) (k : Slot) (x : AddrIdx)
    (hused : (st.inode k).dinode.addrs x ≠ 0 → st.used ((st.inode k).dinode.addrs x) = true) :
    ∃ used', truncAddr k x st =
        .ok ((), st.setAddrs k used' (Function.update (st.inode k).dinode.addrs x 0)) ∧
      Freed st.used used' fun b => b ≠ 0 ∧ (st.inode k).dinode.addrs x = b := by
  unfold truncAddr
  rw [Halting.bind_of_ok (getInode_apply k st)]
  by_cases hzero : (st.inode k).dinode.addrs x ≠ 0
  · rw [if_pos hzero, Halting.bind_of_ok (bfree_spec (hused hzero))]
    exact ⟨_, rfl, freed_number hzero⟩
  · rw [if_neg hzero]
    have hx := not_not.mp hzero
    refine ⟨st.used, ?_, freed_none fun b => ?_⟩
    · rw [← hx, Function.update_eq_self, setAddrs_self]
      rfl
    · rintro ⟨hb, rfl⟩
      exact hb hx

/-- The loop over the direct blocks frees them and clears their places. -/
theorem truncDirect_spec (st : State) (xs : List AddrIdx) (hnodup : xs.Nodup)
    (hused : ∀ x ∈ xs, (st.inode k).dinode.addrs x ≠ 0 →
      st.used ((st.inode k).dinode.addrs x) = true)
    (hinj : ∀ x ∈ xs, ∀ y ∈ xs, (st.inode k).dinode.addrs x ≠ 0 →
      (st.inode k).dinode.addrs x = (st.inode k).dinode.addrs y → x = y) :
    ∃ used', truncDirect k xs st =
        .ok ((), st.setAddrs k used' fun x => if x ∈ xs then 0 else (st.inode k).dinode.addrs x) ∧
      Freed st.used used' fun b => b ≠ 0 ∧ ∃ x ∈ xs, (st.inode k).dinode.addrs x = b := by
  induction xs generalizing st with
  | nil =>
    refine ⟨st.used, ?_, freed_none (by simp)⟩
    simp only [List.not_mem_nil, if_false]
    rw [setAddrs_self]
    rfl
  | cons x xs ih =>
    obtain ⟨hnot, hnodup⟩ := List.nodup_cons.mp hnodup
    obtain ⟨used₁, hrun, hfreed⟩ := truncAddr_spec st k x (hused x List.mem_cons_self)
    unfold truncDirect
    rw [Halting.bind_of_ok hrun]
    -- the other places are as before
    have haddrs : ∀ y ∈ xs, Function.update (st.inode k).dinode.addrs x 0 y =
      (st.inode k).dinode.addrs y := by
      intro y hy
      apply Function.update_of_ne
      rintro rfl
      exact hnot hy
    have hused' : ∀ y ∈ xs, (st.inode k).dinode.addrs y ≠ 0 →
      used₁ ((st.inode k).dinode.addrs y) = true := by
      intro y hy hne
      apply hfreed.still (hused y (List.mem_cons_of_mem x hy) hne)
      rintro ⟨-, heq⟩
      rw [hinj y (List.mem_cons_of_mem x hy) x List.mem_cons_self hne heq.symm] at hy
      exact hnot hy
    obtain ⟨used', hrun', hfreed'⟩ := ih
      (st.setAddrs k used₁ (Function.update (st.inode k).dinode.addrs x 0)) hnodup
      (fun y hy => by
        rw [setAddrs_addrs, haddrs y hy]
        exact hused' y hy)
      (fun y hy z hz => by
        rw [setAddrs_addrs, haddrs y hy, haddrs z hz]
        exact hinj y (List.mem_cons_of_mem x hy) z (List.mem_cons_of_mem x hz))
    simp only [setAddrs_addrs, setAddrs_used] at hrun' hfreed'
    refine ⟨used', ?_, hfreed.trans hfreed' fun b => ?_⟩
    · rw [hrun', setAddrs_setAddrs]
      congr 4
      funext y
      by_cases hyx : y = x
      · simp [hyx]
      · simp [hyx]
    · have hsame : (∃ y ∈ xs, Function.update (st.inode k).dinode.addrs x 0 y = b) ↔
          ∃ y ∈ xs, (st.inode k).dinode.addrs y = b :=
        exists_congr fun y => and_congr_right fun hy => by rw [haddrs y hy]
      rw [hsame]
      exact numbers_cons

/-- The number of the block of an inode's `addrs`, or of its indirect block. -/
def State.Owns (st : State) (k : Slot) (b : Nat) : Prop :=
  ∃ p : Place, p.inum = (st.inode k).inum ∧ blockAt (st.truth k) st.block p = some b

theorem Work.blockAt_entry (h : Work k st) (j : Fin nIndirect) :
    blockAt (st.truth k) st.block (.entry (st.inode k).inum j) =
      (number ((st.inode k).dinode.addrs indirect)).bind fun a => number (word (st.block a) j) := by
  rw [Disk.blockAt_entry, h.indirectAt]

theorem Work.owns_iff (h : Work k st) :
    st.Owns k b ↔ (b ≠ 0 ∧ ∃ x, (st.inode k).dinode.addrs x = b) ∨
    ((st.inode k).dinode.addrs indirect ≠ 0 ∧ b ≠ 0 ∧
      ∃ j ∈ List.range nIndirect, word (st.block ((st.inode k).dinode.addrs indirect)) j = b) := by
  constructor
  · rintro ⟨p, hp, hb⟩
    cases p with
    | addr i x =>
      obtain rfl : i = _ := hp
      rw [h.blockAt_addr] at hb
      obtain ⟨heq, hne⟩ := number_eq_some.mp hb
      exact Or.inl ⟨hne, x, heq⟩
    | entry i j =>
      obtain rfl : i = _ := hp
      rw [h.blockAt_entry] at hb
      obtain ⟨a, ha, hb⟩ := Option.bind_eq_some_iff.mp hb
      obtain ⟨rfl, hane⟩ := number_eq_some.mp ha
      obtain ⟨heq, hne⟩ := number_eq_some.mp hb
      exact Or.inr ⟨hane, hne, j, List.mem_range.mpr j.isLt, heq⟩
  · rintro (⟨hb, x, rfl⟩ | ⟨ha, hb, j, hj, rfl⟩)
    · exact ⟨.addr (st.inode k).inum x, rfl, by rw [h.blockAt_addr, number_of_ne hb]⟩
    · refine ⟨.entry (st.inode k).inum ⟨j, List.mem_range.mp hj⟩, rfl, ?_⟩
      rw [h.blockAt_entry, number_of_ne ha, Option.bind_some, number_of_ne hb]

theorem mem_directs {x : AddrIdx} : x ∈ directs ↔ x ≠ indirect := by
  revert x
  decide

theorem nodup_directs : directs.Nodup := by
  decide

/-- **The indirect block is truncated**, when the direct places are clear already. -/
theorem truncIndirect_spec {used₁ : Nat → Bool} (h : Work k st)
    (hfreed : Freed st.used used₁ fun b => b ≠ 0 ∧ ∃ x ∈ directs, (st.inode k).dinode.addrs x = b) :
    ∃ used', truncIndirect k
        (st.setAddrs k used₁ fun x => if x ∈ directs then 0 else (st.inode k).dinode.addrs x) =
          .ok ((), st.setAddrs k used' fun _ => 0) ∧ Freed st.used used' (st.Owns k) := by
  have hind : (if indirect ∈ directs then 0 else (st.inode k).dinode.addrs indirect) =
      (st.inode k).dinode.addrs indirect := if_neg fun hc => mem_directs.mp hc rfl
  unfold truncIndirect
  rw [Halting.bind_of_ok (Halting.get_apply _)]
  simp only [setAddrs_addrs, setAddrs_block, hind]
  by_cases ha : (st.inode k).dinode.addrs indirect ≠ 0
  · rw [if_pos ha]
    have hentry : ∀ j (hj : j < nIndirect), word (st.block ((st.inode k).dinode.addrs indirect))
      j ≠ 0 →
        blockAt (st.truth k) st.block (.entry (st.inode k).inum ⟨j, hj⟩) =
          some (word (st.block ((st.inode k).dinode.addrs indirect)) j) := by
      intro j hj hne
      rw [h.blockAt_entry, number_of_ne ha, Option.bind_some, number_of_ne hne]
    -- the entries are not among the direct blocks, nor is the indirect block
    obtain ⟨used₂, hrun₂, hfreed₂⟩ := truncEntries_spec
      (a := st.block ((st.inode k).dinode.addrs indirect))
      (st.setAddrs k used₁ fun x => if x ∈ directs then 0 else (st.inode k).dinode.addrs x)
      (List.range nIndirect) List.nodup_range
      (fun j hj hne => by
        have hat := hentry j (List.mem_range.mp hj) hne
        apply hfreed.still (h.owned.used_at hat)
        rintro ⟨-, x, -, hx⟩
        have hat' : blockAt (st.truth k) st.block (.addr (st.inode k).inum x) = _ :=
          (h.blockAt_addr x).trans (by rw [hx, number_of_ne hne])
        cases h.owned.assigned.unique _ _ _ hat hat')
      (fun j hj j' hj' hne heq => by
        have hat := hentry j (List.mem_range.mp hj) hne
        have hat' := hentry j' (List.mem_range.mp hj') (heq ▸ hne)
        rw [← heq] at hat'
        cases h.owned.assigned.unique _ _ _ hat hat'
        rfl)
    have hat : blockAt (st.truth k) st.block (.addr (st.inode k).inum indirect) = _ :=
      (h.blockAt_addr indirect).trans (number_of_ne ha)
    obtain ⟨used₃, hrun₃, hfreed₃⟩ := truncAddr_spec
      (st.setAddrs k used₂ fun x => if x ∈ directs then 0 else (st.inode k).dinode.addrs x) k
      indirect (fun _ => by
        rw [setAddrs_addrs, hind]
        apply hfreed₂.still
        · apply hfreed.still (h.owned.used_at hat)
          rintro ⟨-, x, hx, heq⟩
          have hat' : blockAt (st.truth k) st.block (.addr (st.inode k).inum x) = _ :=
            (h.blockAt_addr x).trans (by rw [heq, number_of_ne ha])
          cases h.owned.assigned.unique _ _ _ hat hat'
          exact mem_directs.mp hx rfl
        · rintro ⟨hne, j, hj, heq⟩
          have hat' := hentry j (List.mem_range.mp hj) (by rw [heq]; exact hne)
          rw [heq] at hat'
          cases h.owned.assigned.unique _ _ _ hat hat')
    rw [setAddrs_addrs, hind] at hfreed₃
    refine ⟨used₃, ?_, (hfreed.trans hfreed₂ fun b => Iff.rfl).trans hfreed₃ fun b => ?_⟩
    · rw [Halting.bind_of_ok hrun₂]
      refine Eq.trans hrun₃ ?_
      rw [setAddrs_addrs, setAddrs_setAddrs]
      congr 3
      funext x
      by_cases hx : x = indirect
      · rw [hx, Function.update_self]
      · rw [Function.update_of_ne hx, if_pos (mem_directs.mpr hx)]
    · rw [h.owns_iff]
      constructor
      · rintro (⟨hb, x, hx⟩ | ⟨-, hb, hj⟩)
        · by_cases hxi : x = indirect
          · exact Or.inr ⟨hb, hxi ▸ hx⟩
          · exact Or.inl (Or.inl ⟨hb, x, mem_directs.mpr hxi, hx⟩)
        · exact Or.inl (Or.inr ⟨hb, hj⟩)
      · rintro ((⟨hb, x, -, hx⟩ | ⟨hb, hj⟩) | ⟨hb, hx⟩)
        · exact Or.inl ⟨hb, x, hx⟩
        · exact Or.inr ⟨ha, hb, hj⟩
        · exact Or.inl ⟨hb, indirect, hx⟩
  · rw [if_neg ha]
    have hzero := not_not.mp ha
    refine ⟨used₁, ?_, hfreed.congr fun b => ?_⟩
    · have hall : (fun x => if x ∈ directs then 0 else (st.inode k).dinode.addrs x) = fun _ =>
        0 := by
        funext x
        by_cases hx : x = indirect
        · rw [hx, hind, hzero]
        · rw [if_pos (mem_directs.mpr hx)]
      rw [hall]
      rfl
    · rw [h.owns_iff]
      constructor
      · rintro (⟨hb, x, hx⟩ | ⟨hc, -⟩)
        · refine ⟨hb, x, mem_directs.mpr ?_, hx⟩
          rintro rfl
          exact hb (hx.symm.trans hzero)
        · exact absurd hc ha
      · rintro ⟨hb, x, -, hx⟩
        exact Or.inl ⟨hb, x, hx⟩

/-- An inode without contents. -/
def Dinode.truncated (d : Dinode) : Dinode := { d with size := 0, addrs := fun _ => 0 }

/-- The state when the inode at `k` has been written to the disk as `d`. -/
def State.stored (st : State) (k : Slot) (used' : Nat → Bool) (d : Dinode) : State :=
  { st with used := used', dinode := Function.update st.dinode (st.inode k).inum d }.setInode k
    { st.inode k with dinode := d }

/-- **Truncation frees the blocks of the inode**, and no others. -/
theorem itrunc_spec (h : Work k st) : ∃ used',
    itrunc k st = .ok ((), st.stored k used' (st.inode k).dinode.truncated) ∧
      Freed st.used used' (st.Owns k) := by
  have hat : ∀ x, (st.inode k).dinode.addrs x ≠ 0 →
      blockAt (st.truth k) st.block (.addr (st.inode k).inum x) =
      some ((st.inode k).dinode.addrs x) :=
    fun x hne => (h.blockAt_addr x).trans (number_of_ne hne)
  obtain ⟨used₁, hrun₁, hfreed₁⟩ := truncDirect_spec (k := k) st directs nodup_directs
    (fun x _ hne => h.owned.used_at (hat x hne))
    (fun x _ y _ hne heq => by
      have hy := hat y (heq ▸ hne)
      rw [← heq] at hy
      cases h.owned.assigned.unique _ _ _ (hat x hne) hy
      rfl)
  obtain ⟨used', hrun, hfreed⟩ := truncIndirect_spec h hfreed₁
  refine ⟨used', ?_, hfreed⟩
  unfold itrunc
  rw [Halting.bind_of_ok hrun₁, Halting.bind_of_ok hrun, Halting.bind_of_ok (updInode_apply _ _ _),
    iupdate_apply]
  unfold State.setAddrs State.stored State.truth State.setInode Dinode.truncated
  simp only [Function.update_self, Function.update_idem]

theorem filePlace_inum {bn : Nat} {p : Place} (h : filePlace i bn = some p) : p.inum = i := by
  unfold filePlace at h
  split at h
  · cases h
    rfl
  · split at h <;> cases h
    rfl

/-- **An inode loses its blocks**, or gets none when it is allocated. -/
theorem Owned.clear (h : Owned sb T used block) {d : Dinode} {used' : Nat → Bool}
    (hsize : d.size = 0) (haddrs : ∀ x, d.addrs x = 0) (htable : d.type ≠ .free → i < sb.ninodes)
    (hfreed : Freed used used' fun b => ∃ p : Place, p.inum = i ∧ blockAt T block p = some b) :
    Owned sb (Function.update T i d) used' block := by
  have hout : ∀ p : Place, ¬ p.inum = i →
    blockAt (Function.update T i d) block p = blockAt T block p :=
    fun p hp => blockAt_inum (Function.update_of_ne hp _ _)
  refine ⟨h.assigned.stopAll (P := fun p => p.inum = i) ?_ hout ?_, ?_, ?_, ?_⟩
  · intro p hp
    cases p with
    | addr i' x =>
      obtain rfl : i' = i := hp
      simp [blockAt, haddrs]
    | entry i' j =>
      obtain rfl : i' = i := hp
      simp [blockAt, haddrs]
  · intro b
    unfold InUse
    rw [hfreed b]
    tauto
  · intro b hb
    apply hfreed.still (h.metadata b hb)
    rintro ⟨p, -, hp⟩
    exact Nat.not_le_of_lt hb (h.assigned.busy_of hp).1
  · intro i' hi' bn hbn
    by_cases heq : i' = i
    · rw [heq, Function.update_self, hsize] at hbn
      exact absurd hbn (Nat.not_lt_zero _)
    · rw [Function.update_of_ne heq] at hi' hbn
      obtain ⟨p, b, hp, hb⟩ := h.filled i' hi' bn hbn
      refine ⟨p, b, hp, ?_⟩
      rw [hout p (by rwa [filePlace_inum hp])]
      exact hb
  · intro i' hi'
    by_cases heq : i' = i
    · rw [heq, Function.update_self] at hi'
      rw [heq]
      exact htable hi'
    · rw [Function.update_of_ne heq] at hi'
      exact h.table i' hi'

theorem Work.inum_lt (h : Work k st) : (st.inode k).inum < st.sb.ninodes :=
  h.owned.table _ (by rw [truth_self]; exact h.type)

/-- The blocks of the inode at `k` are freed on the disk. -/
theorem Work.clear (h : Work k st) {d : Dinode} {used' : Nat → Bool} (hsize : d.size = 0)
    (haddrs : ∀ x, d.addrs x = 0) (hfreed : Freed st.used used' (st.Owns k)) :
    Owned st.sb (Function.update st.dinode (st.inode k).inum d) used' st.block := by
  have hclear := h.owned.clear (d := d) hsize haddrs (fun _ => h.inum_lt) hfreed
  unfold State.truth at hclear
  rwa [Function.update_idem] at hclear

/-! ## Every call -/

/-- The halts other than that of a free block that is freed. -/
def NotFreeing (e : Halt) : Prop := e ≠ .freeingFree

theorem safe_of_cases {α : Type} {I : State → Prop} {x : FsM α} {Q : α → State → Prop}
    (h : ∀ st, I st → (∃ e, x st = .error e ∧ NotFreeing e) ∨ ∃ a st', x st = .ok (a, st') ∧
      Q a st') :
    Halting.Safe I NotFreeing x Q := by
  intro st hst
  rcases h st hst with ⟨e, he, hne⟩ | ⟨a, st', hrun, hq⟩
  · refine ⟨fun e' he' => ?_, fun a st' hrun => ?_⟩
    · rw [he] at he'
      cases he'
      exact hne
    · rw [he] at hrun
      cases hrun
  · refine ⟨fun e he => ?_, fun a' st'' hrun' => ?_⟩
    · rw [hrun] at he
      cases he
    · rw [hrun] at hrun'
      cases hrun'
      exact hq

/-- The state between calls, with a reference to an inode that has been read. -/
def Locked (k : Slot) (st : State) : Prop := Consistent st ∧ st.Held k

theorem Locked.work (h : Locked k st) : Work k st := h.1.work h.2

/-- A change of one place of the table that the disk does not see. -/
theorem Consistent.setInode (h : Consistent st) (ip : Inode) (hinum : ip.inum = (st.inode k).inum)
    (href : 0 < ip.ref → 0 < (st.inode k).ref)
    (hsynced : 0 < ip.ref → ip.valid = true → ip.dinode = st.dinode ip.inum ∧
      ip.dinode.type ≠ .free) :
    Consistent (st.setInode k ip) where
  owned := h.owned
  logged := h.logged
  synced k' := by
    unfold State.Synced
    by_cases hk' : k' = k
    · rw [hk', setInode_self]
      exact hsynced
    · rw [setInode_of_ne _ _ _ hk']
      exact h.synced k'
  distinct := h.distinct.change ip hinum href

theorem ilock_safe (k : Slot) : Halting.Safe Consistent NotFreeing (ilock k) fun _ => Locked k := by
  apply safe_of_cases
  intro st h
  unfold ilock
  rw [Halting.bind_of_ok (Halting.get_apply st)]
  split
  · exact Or.inl ⟨_, rfl, nofun⟩
  · next href =>
    split
    · next hvalid => exact Or.inr ⟨(), st, rfl, h, by omega, hvalid⟩
    · by_cases htype : (st.dinode (st.inode k).inum).type = .free
      · rw [if_pos htype]
        exact Or.inl ⟨_, rfl, nofun⟩
      · rw [if_neg htype]
        refine Or.inr ⟨(), _, rfl, h.setInode _ rfl id fun _ _ => ⟨rfl, htype⟩, ?_⟩
        unfold State.Held
        rw [setInode_self]
        refine ⟨?_, rfl⟩
        show 0 < (st.inode k).ref
        omega

theorem readi_safe (fault : Option Nat) (off n : Nat) :
    Halting.Safe (Locked k) NotFreeing (readi k fault off n) fun _ => Locked k := by
  apply safe_of_cases
  intro st h
  obtain ⟨r, hrun⟩ := readi_ok h.work fault off n
  exact Or.inr ⟨r, st, hrun, h⟩

theorem writei_safe (fault : Option Nat) (src : List UInt8) (off : Nat) :
    Halting.Safe (Locked k) NotFreeing (writei k fault src off) fun _ => Consistent := by
  apply safe_of_cases
  intro st h
  rcases writei_spec h.work h.1 fault src off with herr | ⟨n, st', hrun, hcons⟩
  · exact Or.inl ⟨_, herr, nofun⟩
  · exact Or.inr ⟨n, st', hrun, hcons⟩

theorem iget_safe (inum : Nat) :
    Halting.Safe Consistent NotFreeing (iget inum) fun k st => Consistent st ∧
    1 ≤ (st.inode k).ref := by
  apply safe_of_cases
  intro st h
  unfold iget
  rw [Halting.bind_of_ok (Halting.get_apply st)]
  cases hfind : (List.finRange nInode).find? fun k =>
      0 < (st.inode k).ref && (st.inode k).inum == inum with
  | some k =>
    have hk := List.find?_some hfind
    rw [Bool.and_eq_true, decide_eq_true_eq] at hk
    refine Or.inr ⟨k, _, rfl, h.setInode _ rfl (fun _ => hk.1) fun _ => h.synced k hk.1, ?_⟩
    rw [setInode_self]
    show 1 ≤ (st.inode k).ref + 1
    omega
  | none =>
    cases hempty : (List.finRange nInode).find? fun k => (st.inode k).ref == 0 with
    | none => exact Or.inl ⟨_, rfl, nofun⟩
    | some k =>
      refine Or.inr ⟨k, _, rfl, ⟨h.owned, h.logged, fun k' => ?_, ?_⟩, ?_⟩
      · unfold State.Synced
        by_cases hk' : k' = k
        · rw [hk', setInode_self]
          exact fun _ hvalid => absurd hvalid Bool.false_ne_true
        · rw [setInode_of_ne _ _ _ hk']
          exact h.synced k'
      · -- no other place has this inode
        have hnot : ∀ k', 0 < (st.inode k').ref → (st.inode k').inum ≠ inum := by
          intro k' href heq
          have hnone := List.find?_eq_none.mp hfind k' (List.mem_finRange k')
          rw [Bool.and_eq_true, decide_eq_true_eq, beq_iff_eq] at hnone
          exact hnone ⟨href, heq⟩
        intro k₁ k₂ h₁ h₂ heq
        by_cases hk₁ : k₁ = k
        · by_cases hk₂ : k₂ = k
          · rw [hk₁, hk₂]
          · rw [setInode_of_ne _ _ _ hk₂] at h₂ heq
            rw [hk₁, setInode_self] at heq
            exact absurd heq.symm (hnot k₂ h₂)
        · rw [setInode_of_ne _ _ _ hk₁] at h₁ heq
          by_cases hk₂ : k₂ = k
          · rw [hk₂, setInode_self] at heq
            exact absurd heq (hnot k₁ h₁)
          · rw [setInode_of_ne _ _ _ hk₂] at h₂ heq
            exact h.distinct k₁ k₂ h₁ h₂ heq
      · rw [setInode_self]

/-- The inode has been written to the disk as it is in memory. -/
theorem Work.stored (h : Work k st) {d : Dinode} {used' : Nat → Bool} (htype : d.type ≠ .free)
    (haddrs : d.addrs indirect = 0)
    (howned : Owned st.sb (Function.update st.dinode (st.inode k).inum d) used' st.block) :
    Locked k (st.stored k used' d) := by
  have hwork := h.change (d := d) htype (by
    unfold State.truth
    rw [Function.update_idem]
    exact howned) (h.logged.clear haddrs)
  have hcons := hwork.iupdate
  unfold State.truth State.setInode at hcons
  simp only [Function.update_self] at hcons
  refine ⟨hcons, ?_⟩
  unfold State.stored State.Held
  rw [setInode_self]
  exact h.held

theorem itrunc_safe (k : Slot) : Halting.Safe (Locked k) NotFreeing (itrunc k) fun _ =>
    Locked k := by
  apply safe_of_cases
  intro st h
  obtain ⟨used', hrun, hfreed⟩ := itrunc_spec h.work
  exact Or.inr ⟨(), _, hrun, h.work.stored h.work.type rfl (h.work.clear rfl (fun _ => rfl) hfreed)⟩

/-- **The last reference to an inode without links frees the inode and its blocks**, and no
others. -/
theorem iput_frees (h : Locked k st) (href : (st.inode k).ref = 1)
    (hlink : (st.inode k).dinode.nlink = 0) :
    ∃ st', iput k st = .ok ((), st') ∧ Consistent st' ∧
    (st'.dinode (st.inode k).inum).type = .free ∧
      Freed st.used st'.used (st.Owns k) := by
  obtain ⟨used', hrun, hfreed⟩ := itrunc_spec h.work
  have howned := h.work.clear (d := { (st.inode k).dinode.truncated with type := .free }) rfl
    (fun _ => rfl) hfreed
  unfold iput
  rw [Halting.bind_of_ok (getInode_apply k st), if_pos ⟨href, h.2.2, hlink⟩,
    Halting.bind_of_ok hrun, Halting.bind_of_ok (updInode_apply _ _ _),
    Halting.bind_of_ok (iupdate_apply _ _), Halting.bind_of_ok (updInode_apply _ _ _)]
  simp only [updInode_apply]
  unfold State.stored State.truth State.setInode
  simp only [Function.update_self, Function.update_idem]
  refine ⟨_, rfl, ⟨howned, h.1.logged.clear rfl, fun k' => ?_, ?_⟩, ?_, hfreed⟩
  · unfold State.Synced
    by_cases hk' : k' = k
    · simp [hk']
    · -- another inode has another number
      simp only [Function.update_of_ne hk']
      intro href' hvalid
      have hne : (st.inode k').inum ≠ (st.inode k).inum :=
        fun heq => hk' (h.1.distinct k' k href' h.2.1 heq)
      rw [Function.update_of_ne hne]
      exact h.1.synced k' href' hvalid
  · exact h.1.distinct.change _ rfl fun _ => h.2.1
  · simp

theorem iput_safe (k : Slot) :
    Halting.Safe (fun st => Consistent st ∧ 1 ≤ (st.inode k).ref) NotFreeing
    (iput k) fun _ => Consistent := by
  apply safe_of_cases
  rintro st ⟨h, href⟩
  by_cases hlast : (st.inode k).ref = 1 ∧ (st.inode k).valid = true ∧ (st.inode k).dinode.nlink = 0
  · obtain ⟨st', hrun, hcons, -⟩ := iput_frees ⟨h, by omega, hlast.2.1⟩ hlast.1 hlast.2.2
    exact Or.inr ⟨(), st', hrun, hcons⟩
  · refine Or.inr ⟨(), _, ?_, h.setInode (k := k) { st.inode k with ref := (st.inode k).ref - 1 }
      rfl ?_ ?_⟩
    · unfold iput
      rw [Halting.bind_of_ok (getInode_apply k st), if_neg hlast]
      rfl
    · exact fun _ => href
    · exact fun _ => h.synced k href

theorem idup_safe (k : Slot) :
    Halting.Safe (fun st => Consistent st ∧ 1 ≤ (st.inode k).ref) NotFreeing
    (idup k) fun _ => Consistent := by
  apply safe_of_cases
  rintro st ⟨h, href⟩
  exact Or.inr ⟨(), _, rfl, h.setInode _ rfl (fun _ => href) fun _ => h.synced k href⟩

/-- A new inode has no blocks. -/
theorem Consistent.alloc (h : Consistent st) {inum : Nat} {type : FileType}
    (hfree : (st.dinode inum).type = .free) (hlt : inum < st.sb.ninodes) :
    Consistent { st with dinode := Function.update st.dinode inum { type := type } } where
  owned := by
    apply h.owned.clear rfl (fun _ => rfl) fun _ => hlt
    apply freed_none
    rintro b ⟨p, rfl, hb⟩
    rw [blockAt_free hfree] at hb
    cases hb
  logged := h.logged.clear rfl
  synced k href hvalid := by
    obtain ⟨hcopy, hne⟩ := h.synced k href hvalid
    have hother : (st.inode k).inum ≠ inum := by
      rintro rfl
      rw [hcopy] at hne
      exact hne hfree
    refine ⟨?_, hne⟩
    show (st.inode k).dinode = Function.update st.dinode inum _ (st.inode k).inum
    rw [Function.update_of_ne hother]
    exact hcopy
  distinct := h.distinct

theorem ialloc_safe (type : FileType) :
    Halting.Safe Consistent NotFreeing (ialloc type) fun _ => Consistent := by
  unfold ialloc
  apply Halting.safe_get_bind
  intro st h
  cases hfind : (List.range' 1 (st.sb.ninodes - 1)).find? fun inum =>
    (st.dinode inum).type = .free with
  | none =>
    apply Halting.safe_pure
    rintro st' rfl
    exact h
  | some inum =>
    have hmem := List.mem_range'_1.mp (List.mem_of_find?_eq_some hfind)
    have hfree : (st.dinode inum).type = .free := by simpa using List.find?_some hfind
    apply Halting.safe_bind (P := fun _ => Consistent)
    · rintro st' rfl
      refine ⟨nofun, fun a st'' heq => ?_⟩
      cases heq
      exact h.alloc hfree (by omega)
    · intro _
      apply Halting.safe_bind (iget_safe inum)
      exact fun k => Halting.safe_pure fun st h => h.1

theorem setMeta_safe (k : Slot) (major minor nlink : Int16) : Halting.Safe (Locked k) NotFreeing
    (do
      updInode k fun ip =>
        { ip with dinode := { ip.dinode with major := major, minor := minor, nlink := nlink } }
      iupdate k) fun _ => Consistent := by
  apply safe_of_cases
  intro st h
  have hset := h.work.setFields
    (d := { (st.inode k).dinode with major := major, minor := minor, nlink := nlink }) rfl
    rfl h.work.filled
  exact Or.inr ⟨(), _, rfl, hset.iupdate⟩

/-! ### Directories -/

theorem halt_safe {α : Type} {I : State → Prop} {Q : α → State → Prop} {e : Halt}
    (he : NotFreeing e) : Halting.Safe I NotFreeing (Halting.halt e : FsM α) Q :=
  safe_of_cases fun _ _ => Or.inl ⟨e, rfl, he⟩

theorem findDirent_safe {panics : Halt} (hpanics : NotFreeing panics) (test : List UInt8 → Bool)
    (offs : List Nat) : Halting.Safe (Locked k) NotFreeing (findDirent k panics test offs) fun _ =>
    Locked k := by
  induction offs with
  | nil => exact Halting.safe_pure fun _ h => h
  | cons off offs ih =>
    unfold findDirent
    apply Halting.safe_bind (readi_safe none off direntSize)
    intro r
    cases r with
    | none => exact halt_safe hpanics
    | some de =>
      dsimp only
      split
      · exact halt_safe hpanics
      · split
        · exact Halting.safe_pure fun _ h => h
        · exact ih

/-- What `dirlookup` leaves: the directory as it was, or a reference to the inode found. -/
def LookedUp (k : Slot) (r : Option (Slot × Nat)) (st : State) : Prop :=
  Consistent st ∧ (r = none → st.Held k) ∧ ∀ ip off, r = some (ip, off) → 1 ≤ (st.inode ip).ref

theorem getInode_safe {I : State → Prop} (k : Slot) :
    Halting.Safe I NotFreeing (getInode k) fun _ => I :=
  safe_of_cases fun st h => Or.inr ⟨st.inode k, st, rfl, h⟩

theorem dirlookup_safe (name : List UInt8) :
    Halting.Safe (Locked k) NotFreeing (dirlookup k name) (LookedUp k) := by
  unfold dirlookup
  apply Halting.safe_bind (getInode_safe k)
  intro dp
  split
  · exact halt_safe nofun
  · apply Halting.safe_bind (findDirent_safe (nofun : NotFreeing .lookupRead) _ _)
    intro r
    cases r with
    | none => exact Halting.safe_pure fun st h => ⟨h.1, fun _ => h.2, nofun⟩
    | some found =>
      obtain ⟨off, de⟩ := found
      apply Halting.safe_bind (P := fun ip st => Consistent st ∧ 1 ≤ (st.inode ip).ref)
      · intro st h
        exact iget_safe (direntInum de) st h.1
      · intro ip
        apply Halting.safe_pure
        rintro st ⟨hcons, href⟩
        refine ⟨hcons, nofun, fun ip' off' heq => ?_⟩
        cases heq
        exact href

theorem dirlink_safe (name : List UInt8) (inum : Nat) :
    Halting.Safe (Locked k) NotFreeing (dirlink k name inum) fun _ => Consistent := by
  unfold dirlink
  apply Halting.safe_bind (dirlookup_safe name)
  intro r
  cases r with
  | some found =>
    obtain ⟨ip, off⟩ := found
    apply Halting.safe_bind (P := fun _ => Consistent)
    · intro st h
      exact iput_safe ip st ⟨h.1, h.2.2 ip off rfl⟩
    · exact fun _ => Halting.safe_pure fun _ h => h
  | none =>
    apply Halting.safe_bind (P := fun _ => Locked k)
    · intro st h
      exact getInode_safe k st ⟨h.1, h.2.1 rfl⟩
    · intro dp
      apply Halting.safe_bind (findDirent_safe (nofun : NotFreeing .linkRead) _ _)
      intro r
      apply Halting.safe_bind (writei_safe _ _ _)
      exact fun _ => Halting.safe_pure fun _ h => h

theorem eraseDirent_safe (off : Nat) :
    Halting.Safe (Locked k) NotFreeing (eraseDirent k off) fun _ => Consistent := by
  unfold eraseDirent
  apply Halting.safe_bind (writei_safe _ _ _)
  intro n
  split
  · exact Halting.safe_pure fun _ h => h
  · exact halt_safe nofun

/-- **Every call keeps the agreement**, and frees no free block. -/
theorem exec_safe (op : Op) :
    Halting.Safe (fun st => Consistent st ∧ op.Allowed st) NotFreeing op.exec
    fun _ => Consistent := by
  rintro st ⟨h, hallowed⟩
  have hlocked : ∀ {k : Slot} {x : FsM Unit}, Halting.Safe (Locked k) NotFreeing x
    (fun _ => Consistent) →
      Halting.Safe Consistent NotFreeing (do ilock k; x) fun _ => Consistent :=
    fun hx => Halting.safe_bind (ilock_safe _) fun _ => hx
  have hdone : ∀ {α : Type} {x : FsM α} {I : State → Prop} {Q : α → State → Prop},
      Halting.Safe I NotFreeing x Q → (∀ a st, Q a st → Consistent st) →
      Halting.Safe I NotFreeing (do let _ ← x) fun _ => Consistent :=
    fun hx hq => Halting.safe_bind hx fun a => Halting.safe_pure (hq a)
  cases op with
  | ialloc type => exact hdone (ialloc_safe type) (fun _ _ h => h) st h
  | iget inum => exact hdone (iget_safe inum) (fun _ _ h => h.1) st h
  | idup k => exact idup_safe k st ⟨h, hallowed⟩
  | ilock k => exact (ilock_safe k).mono (fun _ _ h => h.1) st h
  | iput k => exact iput_safe k st ⟨h, hallowed⟩
  | setMeta k major minor nlink => exact hlocked (setMeta_safe k major minor nlink) st h
  | readi k fault off n => exact hlocked (hdone (readi_safe fault off n) fun _ _ h => h.1) st h
  | writei k fault src off => exact hlocked (hdone (writei_safe fault src off) fun _ _ h => h) st h
  | itrunc k => exact hlocked ((itrunc_safe k).mono fun _ _ h => h.1) st h
  | dirlookup k name => exact hlocked (hdone (dirlookup_safe name) fun _ _ h => h.1) st h
  | dirlink k name inum => exact hlocked (hdone (dirlink_safe name inum) fun _ _ h => h) st h
  | eraseDirent k off => exact hlocked (eraseDirent_safe off) st h

/-! ## Every run -/

/-- **Recycling moves no block numbers.** -/
theorem Consistent.blockAt_recycle (h : Consistent st) (gone : Nat → Bool) :
    blockAt (st.recycle gone).dinode (st.recycle gone).block = blockAt st.dinode st.block := by
  apply blockAt_congr
  intro i a ha
  show (if gone a = true then st.disk a else st.block a) = st.block a
  rw [h.logged i a ha, ite_self]

theorem Consistent.recycle (h : Consistent st) (gone : Nat → Bool) :
    Consistent (st.recycle gone) := by
  have hat := h.blockAt_recycle gone
  refine ⟨h.owned.congr hat (fun _ => rfl) fun i hi => ?_, fun i a ha => ?_, h.synced, h.distinct⟩
  · apply (h.owned.filled i hi).mono
    intro p b hb
    exact (congrFun hat p).trans hb
  · show st.disk a = if gone a = true then st.disk a else st.block a
    rw [h.logged i a ha, ite_self]

/-- A consistent image, with no inode in the table and no block in the cache yet. -/
structure Image (st : State) : Prop where
  owned : Owned st.sb st.dinode st.used st.block
  disk : st.disk = st.block
  table : ∀ k, (st.inode k).ref = 0

theorem Image.consistent (h : Image st) : Consistent st where
  owned := h.owned
  logged _ a _ := congrFun h.disk a
  synced k href := by
    rw [h.table k] at href
    cases href
  distinct k k' href := by
    rw [h.table k] at href
    cases href

/-- **Every disk block has one owner**: a number stands at one place, and its block is marked
used; a data block marked used has its number at a place; the copies in memory are those on the
disk. No call frees a free block, and dropping the last reference to an inode without links
frees exactly its blocks. -/
structure OneOwner (st : State) : Prop where
  unique : ∀ p q b, blockAt st.dinode st.block p = some b → blockAt st.dinode st.block q = some b →
    p = q
  marked : ∀ p b, blockAt st.dinode st.block p = some b → st.used b = true
  owner : ∀ b, st.sb.dataStart ≤ b → b < st.sb.size → st.used b = true →
    ∃ p, blockAt st.dinode st.block p = some b
  copies : ∀ k, st.Held k → (st.inode k).dinode = st.dinode (st.inode k).inum
  never : ∀ op : Op, op.Allowed st → op.exec st ≠ .error .freeingFree
  deletes : ∀ k, st.Held k → (st.inode k).ref = 1 → (st.inode k).dinode.nlink = 0 →
    ∃ st', iput k st = .ok ((), st') ∧ (st'.dinode (st.inode k).inum).type = .free ∧
      ∀ b, st'.used b = true ↔ st.used b = true ∧
        ¬ ∃ p : Place, p.inum = (st.inode k).inum ∧ blockAt st.dinode st.block p = some b

theorem Consistent.oneOwner (h : Consistent st) : OneOwner st where
  unique := h.owned.assigned.unique
  marked _ _ hp := h.owned.used_at hp
  owner b hlow hhigh hused := (h.owned.assigned.iff b).mp ⟨hlow, hhigh, hused⟩
  copies k hk := (h.synced k hk.1 hk.2).1
  never op hallowed herr := (exec_safe op st ⟨h, hallowed⟩).1 _ herr rfl
  deletes k hk href hlink := by
    obtain ⟨st', hrun, -, hfree, hfreed⟩ := iput_frees ⟨h, hk⟩ href hlink
    refine ⟨st', hrun, hfree, fun b => ?_⟩
    rw [hfreed b, State.Owns, h.truth hk]

theorem Consistent.step {e : Event} (h : Consistent st) (hstep : Step st e st') :
    Consistent st' := by
  cases e with
  | call op =>
    obtain ⟨hallowed, hexec⟩ := hstep
    exact (exec_safe op st ⟨h, hallowed⟩).2 () st' hexec
  | recycle gone =>
    obtain rfl : st' = st.recycle gone := hstep
    exact h.recycle gone

/-- The state is consistent along every run from a consistent image. -/
theorem Image.run {st₀ : State} {events : List Event} (himage : Image st₀)
    (hrun : Run Step st₀ events st) : Consistent st :=
  Run.invariant (I := Consistent) (fun _ _ _ h hstep => h.step hstep) hrun himage.consistent

/-- **Every disk block has one owner, in every state between calls.** -/
theorem one_owner {st₀ : State} {events : List Event} (himage : Image st₀)
    (hrun : Run Step st₀ events st) : OneOwner st := (himage.run hrun).oneOwner

instance (st : State) : (op : Op) → Decidable (op.Allowed st)
  | .ialloc type => inferInstanceAs (Decidable (type ≠ .free))
  | .idup k | .iput k => inferInstanceAs (Decidable (1 ≤ (st.inode k).ref))
  | .iget _ | .ilock _ | .setMeta .. | .readi .. | .writei .. | .itrunc _ | .dirlookup
      .. | .dirlink ..
  | .eraseDirent .. => .isTrue trivial

/-- The state after an event, when a call is allowed and returns. -/
def State.next (st : State) : Event → Option State
  | .call op => if op.Allowed st then (op.exec st).toOption.map Prod.snd else none
  | .recycle gone => some (st.recycle gone)

theorem step_of_next {e : Event} (h : st.next e = some st') : Step st e st' := by
  cases e with
  | call op =>
    obtain ⟨hallowed, h⟩ := Option.ite_none_right_eq_some.mp h
    obtain ⟨⟨u, st₁⟩, hrun, rfl⟩ := Option.map_eq_some_iff.mp h
    refine ⟨hallowed, ?_⟩
    cases hexec : op.exec st with
    | error e =>
      rw [hexec] at hrun
      cases hrun
    | ok r =>
      rw [hexec] at hrun
      cases hrun
      rfl
  | recycle gone => exact (Option.some.inj h).symm

/-- A disk of nine blocks, three of them in front of the data blocks, with an empty root
directory. -/
def emptyDisk : State where
  sb := { size := 9, ninodes := 3, bmapstart := 2, size_lt := by decide }
  used b := b < 3
  dinode i := if i = 1 then { type := .dir, nlink := 1 } else {}
  block _ _ := 0
  inode _ := {}

theorem blockAt_emptyDisk (p : Place) : blockAt emptyDisk.dinode emptyDisk.block p = none := by
  cases p with
  | addr i x => by_cases hi : i = 1 <;> simp [blockAt, emptyDisk, hi]
  | entry i j => by_cases hi : i = 1 <;> simp [blockAt, emptyDisk, hi]

theorem image_emptyDisk : Image emptyDisk where
  owned := by
    refine ⟨⟨fun b => ⟨?_, ?_⟩, ?_⟩, fun b hb => decide_eq_true hb, ?_, ?_⟩
    · rintro ⟨hlow, -, hused⟩
      exact absurd (of_decide_eq_true hused) (Nat.not_lt_of_le hlow)
    · rintro ⟨p, hp⟩
      rw [blockAt_emptyDisk] at hp
      cases hp
    · intro p q b hp
      rw [blockAt_emptyDisk] at hp
      cases hp
    · intro i hi bn hbn
      have hsize : (emptyDisk.dinode i).size = 0 := by
        by_cases h : i = 1 <;> simp [emptyDisk, h]
      rw [hsize] at hbn
      exact absurd hbn (Nat.not_lt_zero _)
    · intro i hi
      by_contra hc
      have hne : i ≠ 1 := by
        rintro rfl
        exact hc (by decide)
      exact hi (by simp [emptyDisk, hne])
  disk := rfl
  table _ := rfl

/-- The numerals of `Slot`. -/
scoped instance neZero_nInode : NeZero nInode := ⟨Nat.succ_ne_zero 49⟩

/-- A file is written over two blocks, the second copy fails, the buffers are recycled, and the root
directory gets a name for the file. -/
def writeAndLink : List Event :=
  [.call (.ialloc .file), .call (.writei 0 none (List.replicate 1024 7) 0),
    .call (.writei 0 (some 1) [1, 2, 3] 1024), .recycle fun _ => true, .call (.iget 1),
    .call (.dirlink 1 [102] 2)]

set_option maxRecDepth 100000 in
/-- Two blocks of the file and one of the directory are used; the size of the file is that of
one. -/
theorem one_owner_written : ∃ st, Run Step emptyDisk writeAndLink st ∧
    (List.range 9).map st.used = [true, true, true, true, true, true, false, false, false] ∧
    (st.dinode 2).size = 1024 ∧ OneOwner st := by
  have hsome : ((Run.after State.next writeAndLink emptyDisk).map
      fun st => ((List.range 9).map st.used, (st.dinode 2).size)) =
        some ([true, true, true, true, true, true, false, false, false], 1024) := by
    decide +kernel
  obtain ⟨st, hst, heq⟩ := Option.map_eq_some_iff.mp hsome
  rw [Prod.mk.injEq] at heq
  have hrun : Run.Meets Step (fun _ _ => True) emptyDisk ([] ++ writeAndLink) st :=
    Run.meets_of_after (fun s e s' h => ⟨trivial, (step_of_next h : Step s e s')⟩) writeAndLink
      (.nil emptyDisk) hst
  exact ⟨st, hrun.run, heq.1, heq.2, one_owner image_emptyDisk hrun.run⟩

end Xv6.Disk
