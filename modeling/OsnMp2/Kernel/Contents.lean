import OsnMp2.Kernel.Blocks

/-!
# Files as byte arrays

The contents of a file are the bytes of its blocks, up to its size. `readi` returns a part of them,
and `writei` overwrites a part and extends them. A copy that fails leaves bytes in the cache that
are not on the disk; they are there until the buffer is recycled, or logged by a later write.

## Main definitions

* `State.contents`: the contents of a file
* `State.Loose`: a byte that the cache has and the disk does not
* `overwrite`: a byte array with a part overwritten
* `Progress`: the invariant of the loop of `writei`
* `Wrote`: what `writei` does to the files, with buffers recycled before it and behind it
* `ByteArrays`: `readi` and `writei` work on byte arrays

## Main results

* `readi_eq`, `writei_stored`: the two functions on a consistent state
* `byte_arrays`: the files are byte arrays in every state that the calls reach
-/

namespace Xv6.Disk

variable {sb : Superblock} {T : Nat → Dinode} {used : Nat → Bool} {block : Nat → Block}
  {st st' st₁ st₂ : State} {k : Slot} {i b n off tot : Nat} {fault : Option Nat} {src : List UInt8}

/-! ## Byte arrays -/

/-- A byte array with `bs` written at `off`. -/
def overwrite (l : List UInt8) (off : Nat) (bs : List UInt8) : List UInt8 :=
  l.take off ++ bs ++ l.drop (off + bs.length)

theorem getElem?_overwrite {l bs : List UInt8} (h : off ≤ l.length) (x : Nat) :
    (overwrite l off bs)[x]? = if off ≤ x ∧ x < off + bs.length then bs[x - off]? else l[x]? := by
  have htake : (l.take off).length = off := by
    rw [List.length_take]
    omega
  unfold overwrite
  by_cases hlo : x < off
  · rw [if_neg (by omega), List.append_assoc, List.getElem?_append_left (by omega),
      List.getElem?_take_of_lt hlo]
  by_cases hhi : x < off + bs.length
  · rw [if_pos ⟨by omega, hhi⟩, List.getElem?_append_left (by rw [List.length_append]; omega),
      List.getElem?_append_right (by omega), htake]
  · rw [if_neg (by omega), List.getElem?_append_right (by rw [List.length_append]; omega),
      List.length_append, htake, List.getElem?_drop]
    congr 1
    omega

/-! ## The contents of a file -/

/-- The block of the `bn`-th block of an inode. -/
def dataBlock (T : Nat → Dinode) (block : Nat → Block) (i bn : Nat) : Option Nat :=
  (filePlace i bn).bind (blockAt T block)

/-- The byte at the offset `x` of an inode. -/
def byteAt (T : Nat → Dinode) (block : Nat → Block) (i x : Nat) : UInt8 :=
  match dataBlock T block i (x / bSize) with
  | some b => block b (x % bSize)
  | none => 0

/-- **The contents of a file.** -/
def State.contents (st : State) (i : Nat) : List UInt8 :=
  (List.range (st.dinode i).size).map (byteAt st.dinode st.block i)

theorem length_contents (st : State) (i : Nat) : (st.contents i).length = (st.dinode i).size := by
  rw [State.contents, List.length_map, List.length_range]

theorem getElem?_contents (st : State) (i x : Nat) : (st.contents i)[x]? =
    if x < (st.dinode i).size then some (byteAt st.dinode st.block i x) else none := by
  rw [State.contents, List.getElem?_map]
  by_cases hx : x < (st.dinode i).size
  · rw [if_pos hx, List.getElem?_range hx]
    rfl
  · rw [if_neg hx, List.getElem?_eq_none (by rw [List.length_range]; omega)]
    rfl

/-- The state with nothing in the cache. -/
def State.onDisk (st : State) : State := st.recycle fun _ => true

/-- **A byte of a file that the cache has and the disk does not.** -/
def State.Loose (st : State) (i x : Nat) : Prop := (st.contents i)[x]? ≠ (st.onDisk.contents i)[x]?

/-- A file is as it was; a byte that the disk did not have may be the one of the disk now. -/
structure Kept (st st' : State) (i : Nat) : Prop where
  dinode : st'.dinode i = st.dinode i
  bytes : ∀ x, (st'.contents i)[x]? = (st.contents i)[x]? ∨
    st.Loose i x ∧ (st'.contents i)[x]? = (st.onDisk.contents i)[x]?
  loose : ∀ x, st'.Loose i x → st.Loose i x

/-- A file has a block for each byte of its contents. -/
theorem Filled.dataBlock {n x : Nat} (h : Filled T block i n) (hx : x < n) :
    ∃ p b, filePlace i (x / bSize) = some p ∧ blockAt T block p = some b ∧
      dataBlock T block i (x / bSize) = some b := by
  obtain ⟨p, b, hp, hb⟩ := h (x / bSize) (lt_of_le_of_lt (Nat.div_mul_le_self x bSize) hx)
  exact ⟨p, b, hp, hb, by rw [Disk.dataBlock, hp, Option.bind_some, hb]⟩

/-- Different blocks of files have different places. -/
theorem filePlace_inj {i' bn bn' : Nat} {p : Place} (h : filePlace i bn = some p)
    (h' : filePlace i' bn' = some p) : i = i' ∧ bn = bn' := by
  unfold filePlace at h h'
  split at h
  · cases h
    split at h'
    · cases h'
      exact ⟨rfl, rfl⟩
    · split at h' <;> cases h'
  · next hn =>
    split at h
    · cases h
      split at h'
      · cases h'
      · next hn' =>
        split at h'
        · next hlt =>
          obtain ⟨rfl, heq⟩ := Place.entry.inj (Option.some.inj h')
          have hval := congrArg Fin.val heq
          dsimp only at hval
          exact ⟨rfl, by omega⟩
        · cases h'
    · cases h

/-! ## Reading -/

/-- A part of a block is a part of the contents. -/
theorem chunk_eq {m : Nat} (hb : dataBlock T block i (off / bSize) = some b)
    (hm : m ≤ bSize - off % bSize) :
    (List.range m).map (fun j => block b (off % bSize + j)) = (List.range m).map fun j =>
    byteAt T block i (off + j) := by
  apply List.map_congr_left
  intro j hj
  have hj' := List.mem_range.mp hj
  have hdiv : (off + j) / bSize = off / bSize := by
    simp only [bSize] at *
    omega
  have hmod : (off + j) % bSize = off % bSize + j := by
    simp only [bSize] at *
    omega
  rw [byteAt, hdiv, hb, hmod]

theorem faults_mono {a c : Nat} (h : faults fault a = true) (hle : a ≤ c) :
    faults fault c = true := by
  cases fault with
  | none => cases h
  | some f => exact decide_eq_true (lt_of_lt_of_le (of_decide_eq_true h) hle)

/-- The loop of `readi`, from where the copy to the user has not failed yet. -/
theorem readLoop_eq (h : Work k st) (turns : Nat) : ∀ {tot off : Nat}, n - tot ≤ turns →
    off + (n - tot) ≤ (st.inode k).dinode.size → faults fault tot = false →
    readLoop k fault n turns tot off st = .ok (if faults fault n && tot < n then none else
      some ((List.range (n - tot)).map fun j => byteAt (st.truth k) st.block (st.inode k).inum
        (off + j)), st) := by
  induction turns with
  | zero =>
    intro tot off hturns hsize hno
    have hzero : n - tot = 0 := by omega
    rw [readLoop, hzero, decide_eq_false (by omega : ¬ tot < n), Bool.and_false]
    rfl
  | succ turns ih =>
    intro tot off hturns hsize hno
    rw [readLoop]
    by_cases hlt : tot < n
    · obtain ⟨p, b, hp, hb, hdata⟩ := h.filled.dataBlock (x := off) (by omega)
      have hpos := chunk_pos off hlt
      have hle : (n - tot).min (bSize - off % bSize) ≤ n - tot := Nat.min_le_left ..
      have hin : (n - tot).min (bSize - off % bSize) ≤ bSize - off % bSize := Nat.min_le_right ..
      rw [if_pos hlt, Halting.bind_of_ok (bmap_of_filled h hp hb), if_neg (blockAt_ne_zero hb)]
      rw [Halting.bind_of_ok (Halting.get_apply st), decide_eq_true hlt, Bool.and_true,
        chunk_eq hdata hin]
      generalize (n - tot).min (bSize - off % bSize) = m at hpos hle
      cases hf : faults fault (tot + m) with
      | true =>
        rw [if_pos rfl, faults_mono hf (by omega), if_pos rfl]
        rfl
      | false =>
        rw [if_neg Bool.false_ne_true, Halting.bind_of_ok (ih (by omega) (by omega) hf)]
        have hsplit : n - tot = m + (n - (tot + m)) := by omega
        by_cases hend : tot + m < n
        · rw [decide_eq_true hend, Bool.and_true]
          cases hn : faults fault n with
          | true => rfl
          | false =>
            rw [if_neg Bool.false_ne_true, if_neg Bool.false_ne_true, hsplit, List.range_add,
              List.map_append, List.map_map]
            simp only [Function.comp_def, Nat.add_assoc]
            rfl
        · have hn : tot + m = n := by omega
          rw [← hn, hf, hn]
          simp [hsplit, hn]
    · have hzero : n - tot = 0 := by omega
      rw [if_neg hlt, hzero, decide_eq_false hlt, Bool.and_false]
      rfl

/-- **`readi` returns the part of the contents**, unless the sum of offset and length wraps; it
fails when the user may not be given all of it. -/
theorem readi_eq (h : Consistent st) (hk : st.Held k) (fault : Option Nat) (hoff : off < 2 ^ 32)
    (hn : n < 2 ^ 32) : readi k fault off n st = .ok (
      if 2 ^ 32 ≤ off + n then some []
      else if faults fault (((st.contents (st.inode k).inum).drop off).take n).length then none
      else some (((st.contents (st.inode k).inum).drop off).take n), st) := by
  have hwork := h.work hk
  have htruth := h.truth hk
  have hself : (st.inode k).dinode = st.dinode (st.inode k).inum := (h.synced k hk.1 hk.2).1
  have hlen := length_contents st (st.inode k).inum
  rw [← hself] at hlen
  unfold readi
  rw [Halting.bind_of_ok (getInode_apply k st)]
  by_cases hwrap : 2 ^ 32 ≤ off + n
  -- A sum that wraps is smaller than its first part, which is what the source tests.
  · have hu : u32 (off + n) < off := by
      unfold u32
      omega
    rw [if_pos hwrap, if_pos (Or.inr hu)]
    rfl
  have hu : ¬ u32 (off + n) < off := by
    unfold u32
    omega
  rw [if_neg hwrap]
  -- behind the end there is nothing to read, and nothing to copy that could fail
  by_cases hbeyond : (st.inode k).dinode.size < off
  · rw [if_pos (Or.inl hbeyond), List.drop_of_length_le (by omega), List.take_nil]
    cases fault <;> rfl
  rw [if_neg (not_or.mpr ⟨hbeyond, hu⟩)]
  obtain ⟨n', hn', hmin⟩ : ∃ n',
    (if (st.inode k).dinode.size < off + n then (st.inode k).dinode.size - off else n) = n' ∧
      n' = min n ((st.inode k).dinode.size - off) := by
    refine ⟨_, rfl, ?_⟩
    split <;> omega
  -- The bytes asked for and the bytes that the loop reads are the same ones, by index.
  have hpart : ((st.contents (st.inode k).inum).drop off).take n =
      (List.range n').map fun j => byteAt st.dinode st.block (st.inode k).inum (off + j) := by
    apply List.ext_getElem?
    intro x
    rw [List.getElem?_map]
    by_cases hx : x < n'
    · rw [List.getElem?_take_of_lt (by omega), List.getElem?_drop, getElem?_contents, ← hself,
        if_pos (by omega), List.getElem?_range hx]
      rfl
    · rw [List.getElem?_eq_none (by rw [List.length_take, List.length_drop]; omega),
        List.getElem?_eq_none (by rw [List.length_range]; omega)]
      rfl
  have hno : faults fault 0 = false := by
    cases fault <;> rfl
  rw [hn', readLoop_eq hwork n' (Nat.sub_le _ _) (by omega) hno, htruth, Nat.sub_zero, hpart,
    List.length_map, List.length_range]
  cases hf : faults fault n' with
  | false => rfl
  | true =>
    have hpos : 0 < n' := by
      by_contra hc
      rw [Nat.eq_zero_of_not_pos hc, hno] at hf
      cases hf
    rw [decide_eq_true hpos]
    rfl

/-! ## What `bmap` leaves -/

/-- The inodes on the disk, the other copies in memory, and the blocks of files are as they were. -/
structure FilesKept (k : Slot) (st st' : State) : Prop where
  sb : st'.sb = st.sb
  dinode : st'.dinode = st.dinode
  inode : ∀ k', k' ≠ k → st'.inode k' = st.inode k'
  data : ∀ i bn p b, filePlace i bn = some p → blockAt (st.truth k) st.block p = some b →
    st'.block b = st.block b ∧ st'.disk b = st.disk b

theorem FilesKept.refl (k : Slot) (st : State) : FilesKept k st st :=
  ⟨rfl, rfl, fun _ _ => rfl, fun _ _ _ _ _ _ => ⟨rfl, rfl⟩⟩

theorem FilesKept.trans (h : FilesKept k st st₁) (hg : Grown k st st₁) (h' : FilesKept k st₁ st₂) :
    FilesKept k st st₂ where
  sb := h'.sb.trans h.sb
  dinode := h'.dinode.trans h.dinode
  inode k' hk' := (h'.inode k' hk').trans (h.inode k' hk')
  data i bn p b hp hb := by
    obtain ⟨hblock, hdisk⟩ := h'.data i bn p b hp (hg.places p b hb)
    obtain ⟨hblock', hdisk'⟩ := h.data i bn p b hp hb
    exact ⟨hblock.trans hblock', hdisk.trans hdisk'⟩

/-- A free block is taken. -/
theorem Work.give_data (h : Work k st) (hfree : st.used b = false) {c : Nat} {p : Place}
    (hc : blockAt (st.truth k) st.block p = some c) :
    (st.give b).block c = st.block c ∧ (st.give b).disk c = st.disk c := by
  have hne : c ≠ b := by
    rintro rfl
    exact h.owned.not_at hfree p hc
  exact ⟨Function.update_of_ne hne .., Function.update_of_ne hne ..⟩

theorem balloc_full (h : balloc st = .ok (0, st')) (hpos : ∀ b, st.used b = false → b ≠ 0) :
    st' = st ∧ st.freeBlock = none := by
  unfold balloc at h
  rw [Halting.bind_of_ok (Halting.get_apply st)] at h
  cases hfree : st.freeBlock with
  | none =>
    rw [hfree] at h
    cases h
    exact ⟨rfl, rfl⟩
  | some b =>
    rw [hfree] at h
    cases h
    have hunused := List.find?_some hfree
    rw [Bool.not_eq_true'] at hunused
    exact absurd rfl (hpos 0 hunused)

/-- Taking a free block for a place of `addrs`. -/
theorem slotBlock_frame (h : Work k st) {x : AddrIdx} {a : Nat}
    (hrun : slotBlock k x st = .ok (a, st')) :
    FilesKept k st st' ∧ (a = 0 → st'.freeBlock = none) := by
  by_cases hne : (st.inode k).dinode.addrs x ≠ 0
  · rw [slotBlock_of_ne hne] at hrun
    cases hrun
    exact ⟨FilesKept.refl k st, fun hc => absurd hc hne⟩
  unfold slotBlock at hrun
  rw [Halting.bind_of_ok (getInode_apply k st), if_neg hne] at hrun
  rcases balloc_cases st with hfull | ⟨b, hlt, hfree, hb⟩
  · rw [Halting.bind_of_ok hfull, if_pos rfl] at hrun
    cases hrun
    exact ⟨FilesKept.refl k st, fun _ => (balloc_full hfull fun b => h.pos).2⟩
  · rw [Halting.bind_of_ok hb, if_neg (h.pos hfree)] at hrun
    cases hrun
    exact ⟨⟨rfl, rfl, fun k' hk' => setInode_of_ne _ _ _ hk',
      fun i bn p c _ hc => h.give_data hfree hc⟩, fun hc => absurd hc (h.pos hfree)⟩

/-- **`bmap` leaves the files as they are**, and finds no block only when none is free. -/
theorem bmap_frame (h : Work k st) {bn a : Nat} (hrun : bmap k bn st = .ok (a, st')) :
    FilesKept k st st' ∧ (a = 0 → st'.freeBlock = none) := by
  unfold bmap at hrun
  by_cases hdirect : bn < nDirect
  · rw [dif_pos hdirect] at hrun
    exact slotBlock_frame h hrun
  rw [dif_neg hdirect] at hrun
  by_cases hentry : bn - nDirect < nIndirect
  · rw [if_pos hentry] at hrun
    obtain ⟨addr, st₁, hslot, hm⟩ := slotBlock_spec h indirect
    obtain ⟨hframe, hfull⟩ := slotBlock_frame h hslot
    rw [Halting.bind_of_ok hslot] at hrun
    by_cases haddr : addr = 0
    · rw [if_pos haddr] at hrun
      cases hrun
      exact ⟨hframe, fun _ => hfull haddr⟩
    rw [if_neg haddr, Halting.bind_of_ok (Halting.get_apply st₁)] at hrun
    by_cases hword : word (st₁.block addr) (bn - nDirect) ≠ 0
    · rw [if_pos hword] at hrun
      cases hrun
      exact ⟨hframe, fun hc => absurd hc hword⟩
    rw [if_neg hword] at hrun
    rcases balloc_cases st₁ with hnone | ⟨b, hlt, hfree, hb⟩
    · rw [Halting.bind_of_ok hnone, if_pos rfl] at hrun
      cases hrun
      exact ⟨hframe, fun _ => (balloc_full hnone fun b => hm.work.pos).2⟩
    · rw [Halting.bind_of_ok hb, if_neg (hm.work.pos hfree)] at hrun
      cases hrun
      have hat := hm.at_place haddr
      -- the block of the entries is no block of a file
      refine ⟨hframe.trans hm.grown ⟨rfl, rfl, fun _ _ => rfl, fun i bn' p c hp hc => ?_⟩,
        fun hc => absurd hc (hm.work.pos hfree)⟩
      obtain ⟨hblock, hdisk⟩ := hm.work.give_data hfree hc
      have hne : c ≠ addr := by
        rintro rfl
        exact hm.work.owned.not_indirect hp hc _ hat
      exact ⟨(Function.update_of_ne hne ..).trans hblock,
        (Function.update_of_ne hne ..).trans hdisk⟩
  · rw [if_neg hentry] at hrun
    cases hrun

theorem raises_set {E : Halt → Prop} (s : State) : Halting.Raises E (set s : FsM Unit) := by
  intro st e h
  cases h

theorem balloc_raises : Halting.Raises (fun _ => False) balloc := by
  unfold balloc
  refine Halting.raises_bind Halting.raises_get fun st => ?_
  cases st.freeBlock with
  | none => exact Halting.raises_pure 0
  | some b => exact Halting.raises_bind (raises_set _) fun _ => Halting.raises_pure b

theorem slotBlock_raises (k : Slot) (x : AddrIdx) :
    Halting.Raises (fun _ => False) (slotBlock k x) := by
  unfold slotBlock
  refine Halting.raises_bind (Halting.raises_bind Halting.raises_get fun st => Halting.raises_pure
    _) fun ip => ?_
  split
  · exact Halting.raises_pure _
  · refine Halting.raises_bind balloc_raises fun addr => ?_
    split
    · exact Halting.raises_pure 0
    · exact Halting.raises_bind (Halting.raises_modify _) fun _ => Halting.raises_pure addr

/-- `bmap` does not panic in a file of the greatest size. -/
theorem bmap_raises (k : Slot) {bn : Nat} (hbn : bn < maxFile) :
    Halting.Raises (fun _ => False) (bmap k bn) := by
  unfold bmap
  split
  · exact slotBlock_raises k _
  · rw [if_pos (by simp only [maxFile, nDirect, nIndirect] at *; omega)]
    refine Halting.raises_bind (slotBlock_raises k indirect) fun addr => ?_
    split
    · exact Halting.raises_pure 0
    refine Halting.raises_bind Halting.raises_get fun st => ?_
    show Halting.Raises _ (if word (st.block addr) (bn - nDirect) ≠ 0 then _ else _)
    split
    · exact Halting.raises_pure _
    refine Halting.raises_bind balloc_raises fun e => ?_
    split
    · exact Halting.raises_pure 0
    · exact Halting.raises_bind (Halting.raises_modify _) fun _ => Halting.raises_pure e

/-- **`bmap`**, in a file of the greatest size. -/
theorem bmap_mapped (h : Work k st) {bn : Nat} (hbn : bn < maxFile) :
    ∃ p a st', filePlace (st.inode k).inum bn = some p ∧ bmap k bn st = .ok (a, st') ∧
    Mapped k st p a st' ∧
      FilesKept k st st' ∧ (a = 0 → st'.freeBlock = none) := by
  rcases bmap_spec h bn with herr | ⟨p, a, st', hp, hrun, hm⟩
  · exact (bmap_raises k hbn st _ herr).elim
  · exact ⟨p, a, st', hp, hrun, hm, bmap_frame h hrun⟩

/-! ## Writing -/

/-- The bytes that a read of a block may find, as the buffer is recycled before it or not. -/
def State.bytes (st : State) (b y : Nat) : List UInt8 := [st.block b y, st.disk b y]

theorem bytes_log (st : State) (a : Block) (b' y : Nat) :
    ({ st with block := Function.update st.block b a, disk := Function.update st.disk b a } :
      State).bytes b' y = if b' = b then [a y, a y] else st.bytes b' y := by
  unfold State.bytes
  by_cases h : b' = b <;> simp [h]

theorem bytes_spill (st : State) (a : Block) (b' y : Nat) :
    ({ st with block := Function.update st.block b a } : State).bytes b' y =
      if b' = b then [a y, st.disk b y] else st.bytes b' y := by
  unfold State.bytes
  by_cases h : b' = b <;> simp [h]

theorem block_mem_bytes (st : State) (b y : Nat) : st.block b y ∈ st.bytes b y := List.mem_cons_self

theorem disk_mem_bytes (st : State) (b y : Nat) : st.disk b y ∈ st.bytes b y :=
  List.mem_cons_of_mem _ (List.mem_singleton_self _)

theorem bytes_recycle (st : State) (gone : Nat → Bool) (b y : Nat) :
    (st.recycle gone).bytes b y ⊆ st.bytes b y := by
  apply List.cons_subset.mpr
  refine ⟨?_, List.cons_subset.mpr ⟨disk_mem_bytes st b y, List.nil_subset _⟩⟩
  show (if gone b = true then st.disk b else st.block b) y ∈ _
  split
  · exact disk_mem_bytes st b y
  · exact block_mem_bytes st b y

/-- **The bytes that a failing copy from user memory may leave behind**: those that it has copied to
the block in which it failed, behind the `tot` bytes that are written. -/
def Spilled (fault : Option Nat) (off tot x : Nat) : Prop :=
  ∃ f, fault = some f ∧ off + tot ≤ x ∧ x < off + f ∧ x / bSize = (off + tot) / bSize

/-- **How far a write has got** when the first `c` bytes of `src` are in the file, and logged: the
bytes of the files of `st` that are neither in the range nor `spilled` over it are as they were. -/
structure Progress (k : Slot) (src : List UInt8) (off c : Nat) (spilled : Nat → Prop)
    (st st₁ : State) : Prop where
  work : Work k st₁
  grown : Grown k st st₁
  sb : st₁.sb = st.sb
  dinode : st₁.dinode = st.dinode
  inode : ∀ k', k' ≠ k → st₁.inode k' = st.inode k'
  filled : Filled (st₁.truth k) st₁.block (st₁.inode k).inum (off + c)
  old : ∀ i bn p b y, filePlace i bn = some p → blockAt (st.truth k) st.block p = some b →
    y < bSize → ¬ (i = (st.inode k).inum ∧
      (off ≤ bn * bSize + y ∧ bn * bSize + y < off + c ∨ spilled (bn * bSize + y))) →
    st₁.bytes b y ⊆ st.bytes b y
  new : ∀ bn p b y, filePlace (st.inode k).inum bn = some p →
    blockAt (st₁.truth k) st₁.block p = some b →
    y < bSize → off ≤ bn * bSize + y → bn * bSize + y < off + c →
    st₁.bytes b y ⊆ [src.getD (bn * bSize + y - off) 0]

/-- Nothing is spilled. -/
abbrev noSpill (_ : Nat) : Prop := False

theorem Progress.start (h : Work k st)
    (hfilled : Filled (st.truth k) st.block (st.inode k).inum off) :
    Progress k src off 0 noSpill st st where
  work := h
  grown := Grown.refl k st
  sb := rfl
  dinode := rfl
  inode _ _ := rfl
  filled := hfilled
  old _ _ _ _ _ _ _ _ _ := List.Subset.refl _
  new _ _ _ _ _ _ _ hlo hhi := absurd hlo (Nat.not_le.mpr hhi)

variable {c : Nat} {spilled : Nat → Prop}

theorem Progress.mono (h : Progress k src off c noSpill st st₁) :
    Progress k src off c spilled st st₁ where
  work := h.work
  grown := h.grown
  sb := h.sb
  dinode := h.dinode
  inode := h.inode
  filled := h.filled
  old i bn p b y hp hb hy hout := h.old i bn p b y hp hb hy fun hin =>
    hout ⟨hin.1, hin.2.imp_right False.elim⟩
  new := h.new

theorem FilesKept.bytes (hf : FilesKept k st st₁) {bn : Nat} {p : Place}
    (hp : filePlace i bn = some p)
    (hb : blockAt (st.truth k) st.block p = some b) (y : Nat) : st₁.bytes b y = st.bytes b y := by
  obtain ⟨hblock, hdisk⟩ := hf.data i bn p b hp hb
  unfold State.bytes
  rw [hblock, hdisk]

/-- `bmap` finds or makes a block. -/
theorem Progress.map (h : Progress k src off c noSpill st st₁) (hw : Work k st₂)
    (hg : Grown k st₁ st₂) (hf : FilesKept k st₁ st₂) : Progress k src off c noSpill st st₂ where
  work := hw
  grown := h.grown.trans hg
  sb := hf.sb.trans h.sb
  dinode := hf.dinode.trans h.dinode
  inode k' hk' := (hf.inode k' hk').trans (h.inode k' hk')
  filled := by
    rw [hg.inum]
    exact h.filled.mono hg.places
  old i bn p b y hp hb hy hout := by
    rw [hf.bytes hp (h.grown.places p b hb)]
    exact h.old i bn p b y hp hb hy hout
  new bn p b y hp hb hy hlo hhi := by
    -- the block is one that there was before
    obtain ⟨p', b', hp', hb'⟩ := h.filled bn (lt_of_le_of_lt (Nat.le_add_right ..) hhi)
    rw [h.grown.inum, hp] at hp'
    obtain rfl := Option.some.inj hp'
    obtain rfl := Option.some.inj ((hg.places p b' hb').symm.trans hb)
    rw [hf.bytes hp hb']
    exact h.new bn p b' y hp hb' hy hlo hhi

/-- A part of `src` is written to a block. -/
theorem writeAt_part (a : Block) (o : Nat) {c m : Nat} (hlen : c + m ≤ src.length) (y : Nat) :
    writeAt a o ((src.take (c + m)).drop c) y =
      if o ≤ y ∧ y < o + m then src.getD (c + (y - o)) 0 else a y := by
  have hpart : ((src.take (c + m)).drop c).length = m := by
    rw [List.length_drop, List.length_take]
    omega
  unfold writeAt
  rw [hpart]
  by_cases hy : o ≤ y ∧ y < o + m
  · rw [if_pos hy, if_pos hy, List.getD_eq_getElem?_getD, List.getD_eq_getElem?_getD,
      List.getElem?_drop, List.getElem?_take_of_lt (by omega)]
  · rw [if_neg hy, if_neg hy]

/-- A block with the number of the block that is written is this block, at its place in the file. -/
theorem Progress.same_place (h : Progress k src off c spilled st st₁) {p p' : Place}
    {i' bn bn' : Nat}
    (hp : filePlace (st₁.inode k).inum bn = some p)
    (hb : blockAt (st₁.truth k) st₁.block p = some b)
    (hp' : filePlace i' bn' = some p') (hb' : blockAt (st₁.truth k) st₁.block p' = some b) :
    i' = (st.inode k).inum ∧ bn' = bn := by
  obtain rfl := h.work.owned.assigned.unique _ _ b hb' hb
  rw [← h.grown.inum]
  exact filePlace_inj hp' hp

/-- **The next bytes of `src` are written** to the block of the offset. -/
theorem Progress.write (h : Progress k src off c noSpill st st₁) {p : Place} {m : Nat}
    (hp : filePlace (st₁.inode k).inum ((off + c) / bSize) = some p)
    (hb : blockAt (st₁.truth k) st₁.block p = some b) (hm : m ≤ bSize - (off + c) % bSize)
    (hlen : c + m ≤ src.length) {a : Block}
    (ha : a = writeAt (st₁.block b) ((off + c) % bSize) ((src.take (c + m)).drop c)) :
    Progress k src off (c + m) noSpill st
      { st₁ with
        block := Function.update st₁.block b a
        disk := Function.update st₁.disk b a } := by
  have hkept := h.work.owned.blockAt_write hp hb a
  have hwrite : ∀ y, a y = _ := fun y => (congrFun ha y).trans (writeAt_part _ _ hlen y)
  have hdiv := Nat.div_add_mod' (off + c) bSize
  refine ⟨h.work.write hp hb a fun c hc => Function.update_of_ne hc ..,
    ⟨h.grown.inum, h.grown.size, fun q d hq => ?_⟩, h.sb, h.dinode, h.inode, fun bn hbn => ?_,
    fun i' bn' p' b' y hp' hb' hy hout => ?_, fun bn' p' b' y hp' hb' hy hlo hhi => ?_⟩
  · exact (congrFun hkept q).trans (h.grown.places q d hq)
  · by_cases hold : bn * bSize < off + c
    · obtain ⟨q, d, hq, hd⟩ := h.filled bn hold
      exact ⟨q, d, hq, (congrFun hkept q).trans hd⟩
    · have hbneq : bn = (off + c) / bSize := by
        simp only [bSize] at *
        omega
      rw [hbneq]
      exact ⟨p, b, hp, (congrFun hkept p).trans hb⟩
  · have hb₁ := h.grown.places p' b' hb'
    have hold : st₁.bytes b' y ⊆ st.bytes b' y := by
      apply h.old i' bn' p' b' y hp' hb' hy
      rintro ⟨hi, ⟨hlo, hhi⟩ | hspill⟩
      · exact hout ⟨hi, Or.inl ⟨hlo, by omega⟩⟩
      · exact hspill
    rw [bytes_log]
    by_cases heq : b' = b
    · subst heq
      obtain ⟨rfl, rfl⟩ := h.same_place hp hb hp' hb₁
      have hy' : a y = st₁.block b' y := by
        rw [hwrite, if_neg]
        rintro ⟨hlo, hhi⟩
        exact hout ⟨rfl, Or.inl ⟨by omega, by omega⟩⟩
      rw [if_pos rfl, hy']
      have hmem := hold (block_mem_bytes st₁ b' y)
      exact List.cons_subset.mpr ⟨hmem, List.cons_subset.mpr ⟨hmem, List.nil_subset _⟩⟩
    · rw [if_neg heq]
      exact hold
  · have hb₁ : blockAt (st₁.truth k) st₁.block p' = some b' := (congrFun hkept p').symm.trans hb'
    rw [bytes_log]
    by_cases heq : b' = b
    · subst heq
      obtain ⟨-, rfl⟩ := h.same_place hp hb hp' hb₁
      have hy' : a y = src.getD ((off + c) / bSize * bSize + y - off) 0 := by
        rw [hwrite]
        by_cases hin : (off + c) % bSize ≤ y ∧ y < (off + c) % bSize + m
        · rw [if_pos hin]
          congr 1
          omega
        · rw [if_neg hin]
          apply List.mem_singleton.mp
          exact h.new _ p' b' y hp' hb₁ hy hlo (by omega) (block_mem_bytes st₁ b' y)
      rw [if_pos rfl, hy']
      simp
    · rw [if_neg heq]
      refine h.new bn' p' b' y hp' hb₁ hy hlo ?_
      -- the rest of the range is in the other block
      by_contra hge
      have hbn : bn' = (off + c) / bSize := by
        simp only [bSize] at *
        omega
      rw [hbn, ← h.grown.inum, hp] at hp'
      obtain rfl := Option.some.inj hp'
      exact heq (Option.some.inj (hb₁.symm.trans hb))

/-- **A copy fails behind its first bytes**, which stay in the buffer. -/
theorem Progress.spill (h : Progress k src off c noSpill st st₁) {p : Place} {f : Nat}
    (hp : filePlace (st₁.inode k).inum ((off + c) / bSize) = some p)
    (hb : blockAt (st₁.truth k) st₁.block p = some b) (hf : fault = some f)
    (hlen : c + (f - c) ≤ src.length) {a : Block}
    (ha : a = writeAt (st₁.block b) ((off + c) % bSize) ((src.take (c + (f - c))).drop c)) :
    Progress k src off c (Spilled fault off c) st
    { st₁ with block := Function.update st₁.block b a } := by
  have hkept := h.work.owned.blockAt_write hp hb a
  have hwrite : ∀ y, a y = _ := fun y => (congrFun ha y).trans (writeAt_part _ _ hlen y)
  have hdiv := Nat.div_add_mod' (off + c) bSize
  refine ⟨h.work.write hp hb a fun _ _ => rfl, ⟨h.grown.inum, h.grown.size, fun q d hq => ?_⟩,
    h.sb, h.dinode, h.inode, h.filled.mono fun q d hq => (congrFun hkept q).trans hq,
    fun i' bn' p' b' y hp' hb' hy hout => ?_, fun bn' p' b' y hp' hb' hy hlo hhi => ?_⟩
  · exact (congrFun hkept q).trans (h.grown.places q d hq)
  · have hb₁ := h.grown.places p' b' hb'
    have hold : st₁.bytes b' y ⊆ st.bytes b' y := by
      apply h.old i' bn' p' b' y hp' hb' hy
      rintro ⟨hi, hin | hspill⟩
      · exact hout ⟨hi, Or.inl hin⟩
      · exact hspill
    rw [bytes_spill]
    by_cases heq : b' = b
    · subst heq
      obtain ⟨rfl, rfl⟩ := h.same_place hp hb hp' hb₁
      have hy' : a y = st₁.block b' y := by
        rw [hwrite, if_neg]
        rintro ⟨hlo, hhi⟩
        refine hout ⟨rfl, Or.inr ⟨f, hf, by omega, by omega, ?_⟩⟩
        simp only [bSize] at *
        omega
      rw [if_pos rfl, hy']
      exact hold
    · rw [if_neg heq]
      exact hold
  · have hb₁ : blockAt (st₁.truth k) st₁.block p' = some b' := (congrFun hkept p').symm.trans hb'
    have hnew := h.new bn' p' b' y hp' hb₁ hy hlo hhi
    rw [bytes_spill]
    by_cases heq : b' = b
    · subst heq
      obtain ⟨-, rfl⟩ := h.same_place hp hb hp' hb₁
      have hy' : a y = st₁.block b' y := by
        rw [hwrite, if_neg]
        rintro ⟨hlo', -⟩
        omega
      rw [if_pos rfl, hy']
      exact hnew
    · rw [if_neg heq]
      exact hnew

theorem copied_of_not_faults (h : faults fault n = false) : copied fault n = n := by
  unfold copied
  cases fault with
  | none => exact Nat.min_self n
  | some f => exact Nat.min_eq_right (Nat.le_of_not_lt (of_decide_eq_false h))

theorem copied_of_faults (h : faults fault n = true) : ∃ f, fault = some f ∧ f < n ∧
    copied fault n = f := by
  cases fault with
  | none => cases h
  | some f =>
    have hlt : f < n := of_decide_eq_true h
    exact ⟨f, rfl, hlt, Nat.min_eq_left hlt.le⟩

/-- Why a write is short: the copy of a byte of the user fails, or no block is free. -/
def Short (fault : Option Nat) (src : List UInt8) (st : State) : Prop :=
  faults fault src.length = true ∨ st.freeBlock = none

/-- **The loop of `writei`**: where it stops, the first bytes of `src` are in the file, and besides
them those that a failing copy has put in the next block. -/
theorem writeLoop_progress (hsize : off + src.length ≤ maxFile * bSize) (turns : Nat) :
    ∀ {tot : Nat} {st₁ : State},
    src.length - tot ≤ turns → tot ≤ src.length → faults fault tot = false →
    Progress k src off tot noSpill st st₁ →
    ∃ tot' st', writeLoop k fault src turns tot (off + tot) st₁ = .ok ((tot', off + tot'), st') ∧
      Progress k src off tot' (Spilled fault off tot') st st' ∧ tot' ≤ src.length ∧
      (tot' < src.length → Short fault src st') := by
  induction turns with
  | zero =>
    intro tot st₁ hturns htot hno h
    exact ⟨tot, st₁, rfl, h.mono, htot, fun hlt => by omega⟩
  | succ turns ih =>
    intro tot st₁ hturns htot hno h
    rw [writeLoop]
    by_cases hlt : tot < src.length
    · have hbn : (off + tot) / bSize < maxFile := Nat.div_lt_of_lt_mul (by rw [Nat.mul_comm]; omega)
      obtain ⟨p, a, st₂, hp, hrun, hm, hframe, hfull⟩ := bmap_mapped h.work hbn
      have hmap := h.map hm.work hm.grown hframe
      rw [if_pos hlt, Halting.bind_of_ok hrun]
      by_cases ha : a = 0
      · rw [if_pos ha]
        exact ⟨tot, st₂, rfl, hmap.mono, htot, fun _ => Or.inr (hfull ha)⟩
      rw [if_neg ha]
      have hat := hm.at_place ha
      rw [← hm.grown.inum] at hp
      have hpos := chunk_pos (off + tot) hlt
      have hle : (src.length - tot).min (bSize - (off + tot) % bSize) ≤ src.length - tot :=
        Nat.min_le_left ..
      have hin : (src.length - tot).min (bSize - (off + tot) % bSize) ≤
        bSize - (off + tot) % bSize :=
        Nat.min_le_right ..
      generalize (src.length - tot).min (bSize - (off + tot) % bSize) = m at hpos hle hin
      cases hf : faults fault (tot + m) with
      | true =>
        obtain ⟨f, hfault, hfm, hcopied⟩ := copied_of_faults hf
        have hftot : tot ≤ f := by
          rw [hfault] at hno
          exact Nat.le_of_not_lt (of_decide_eq_false hno)
        have hsum : tot + (f - tot) = f := by omega
        rw [if_pos rfl, Halting.bind_of_ok (updBuffer_apply _ _ _), hcopied]
        exact ⟨tot, _, rfl, hmap.spill hp hat hfault (by omega) (by rw [hsum]), htot,
          fun _ => Or.inl (faults_mono hf (by omega))⟩
      | false =>
        rw [if_neg Bool.false_ne_true, Halting.bind_of_ok (updBlock_apply _ _ _),
          copied_of_not_faults hf, Nat.add_assoc]
        exact ih (by omega) (by omega) hf (hmap.write hp hat hin (by omega) rfl)
    · rw [if_neg hlt]
      exact ⟨tot, st₁, rfl, h.mono, htot, fun hc => absurd hc hlt⟩

/-- The size and the copy on the disk, behind the loop. -/
theorem writei_end (st₁ : State) (k : Slot) (off' : Nat) : ∃ st₂ : State,
    (do
      updInode k fun ip => if ip.dinode.size < off' then
      { ip with dinode := { ip.dinode with size := off' } } else ip
      iupdate k : FsM Unit) st₁ = .ok ((), st₂) ∧
      st₂.block = st₁.block ∧ st₂.disk = st₁.disk ∧ st₂.used = st₁.used ∧ st₂.sb = st₁.sb ∧
      st₂.dinode = Function.update st₁.dinode (st₁.inode k).inum
        { (st₁.inode k).dinode with size := max (st₁.inode k).dinode.size off' } ∧
      (st₂.inode k).inum = (st₁.inode k).inum ∧ (st₁.Held k → st₂.Held k) := by
  have hself : ∀ ip : Inode, (st₁.setInode k ip).inode k = ip := fun ip => setInode_self ..
  by_cases hgrow : (st₁.inode k).dinode.size < off'
  · rw [Halting.bind_of_ok (updInode_apply _ _ st₁), if_pos hgrow]
    refine ⟨_, rfl, rfl, rfl, rfl, rfl, ?_, ?_, fun hk => ?_⟩
    · show State.truth _ k = _
      rw [State.truth, setInode_self, max_eq_right hgrow.le]
      rfl
    · show (State.inode (st₁.setInode k _) k).inum = _
      rw [hself]
    · show 0 < (State.inode (st₁.setInode k _) k).ref ∧
        (State.inode (st₁.setInode k _) k).valid = true
      rw [hself]
      exact hk
  · rw [Halting.bind_of_ok (updInode_apply _ _ st₁), if_neg hgrow]
    refine ⟨_, rfl, rfl, rfl, rfl, rfl, ?_, ?_, fun hk => ?_⟩
    · show State.truth _ k = _
      rw [State.truth, setInode_self, max_eq_left (Nat.le_of_not_lt hgrow)]
      rfl
    · show (State.inode (st₁.setInode k _) k).inum = _
      rw [hself]
    · show 0 < (State.inode (st₁.setInode k _) k).ref ∧
        (State.inode (st₁.setInode k _) k).valid = true
      rw [hself]
      exact hk

/-! ## What a write does -/

theorem dataBlock_of_place {bn : Nat} {p : Place} (hp : filePlace i bn = some p)
    (hb : blockAt T block p = some b) : dataBlock T block i bn = some b := by
  rw [dataBlock, hp, Option.bind_some, hb]

/-- **What a `writei` that is not refused leaves** of the bytes in the cache and on the disk. -/
structure Stored (st : State) (k : Slot) (fault : Option Nat) (src : List UInt8) (off tot : Nat)
    (st' : State) : Prop where
  size : (st'.dinode (st.inode k).inum).size = max (st.dinode (st.inode k).inum).size (off + tot)
  others : ∀ i, i ≠ (st.inode k).inum → st'.dinode i = st.dinode i
  short : tot < src.length → Short fault src st'
  old : ∀ i x b, x < (st.dinode i).size → dataBlock st.dinode st.block i (x / bSize) = some b →
    ¬ (i = (st.inode k).inum ∧ (off ≤ x ∧ x < off + tot ∨ Spilled fault off tot x)) →
    dataBlock st'.dinode st'.block i (x / bSize) = some b ∧ st'.bytes b (x % bSize) ⊆
    st.bytes b (x % bSize)
  new : ∀ x, off ≤ x → x < off + tot → ∃ b,
    dataBlock st'.dinode st'.block (st.inode k).inum (x / bSize) = some b ∧
      st'.bytes b (x % bSize) ⊆ [src.getD (x - off) 0]

theorem Progress.stored (h : Progress k src off tot (Spilled fault off tot) st st₁)
    (hcons : Consistent st)
    (hk : st.Held k) (hshort : tot < src.length → Short fault src st₁)
    (hblock : st₂.block = st₁.block)
    (hdisk : st₂.disk = st₁.disk) (hused : st₂.used = st₁.used) (hsb : st₂.sb = st₁.sb)
    (hdinode : st₂.dinode = Function.update st₁.dinode (st₁.inode k).inum
      { (st₁.inode k).dinode with size := max (st₁.inode k).dinode.size (off + tot) }) :
    Stored st k fault src off tot st₂ := by
  have htruth := hcons.truth hk
  have hself : st.dinode (st.inode k).inum = (st.inode k).dinode :=
    (hcons.synced k hk.1 hk.2).1.symm
  have hinum := h.grown.inum
  rw [hinum, h.dinode, h.grown.size] at hdinode
  have hat : blockAt st₂.dinode st₂.block = blockAt (st₁.truth k) st₁.block := by
    rw [hblock, hdinode, State.truth, hinum, h.dinode]
    apply blockAt_sameAddrs
    all_goals
      intro i
      by_cases hi : i = (st.inode k).inum <;> simp [hi]
  have hbytes : ∀ b y, st₂.bytes b y = st₁.bytes b y := by
    intro b y
    unfold State.bytes
    rw [hblock, hdisk]
  refine ⟨?_, fun i hi => ?_, fun hlt => ?_, fun i x b hx hb hout => ?_, fun x hlo hhi => ?_⟩
  · rw [hdinode, Function.update_self, hself]
  · rw [hdinode, Function.update_of_ne hi]
  · rcases hshort hlt with hf | hfree
    · exact Or.inl hf
    · refine Or.inr ?_
      unfold State.freeBlock at hfree ⊢
      rw [hused, hsb]
      exact hfree
  · obtain ⟨p, hp, hb⟩ := Option.bind_eq_some_iff.mp hb
    have hdiv := Nat.div_add_mod' x bSize
    rw [← htruth] at hb
    refine ⟨dataBlock_of_place hp ((congrFun hat p).trans (h.grown.places p b hb)), ?_⟩
    rw [hbytes]
    apply h.old i _ p b _ hp hb (Nat.mod_lt x (by decide))
    rw [hdiv]
    exact hout
  · obtain ⟨p, b, hp, hb, -⟩ := h.filled.dataBlock hhi
    have hdiv := Nat.div_add_mod' x bSize
    rw [hinum] at hp
    refine ⟨b, dataBlock_of_place hp ((congrFun hat p).trans hb), ?_⟩
    have hnew := h.new _ p b _ hp hb (Nat.mod_lt x (by decide)) (by omega) (by omega)
    rw [hdiv] at hnew
    rw [hbytes]
    exact hnew

/-- Buffers are recycled before the write and behind it. -/
theorem Stored.recycle {gone : Nat → Bool} (h : Stored (st.recycle gone) k fault src off tot st₁)
    (hcons : Consistent st) (hcons₁ : Consistent st₁) (gone' : Nat → Bool) :
    Stored st k fault src off tot (st₁.recycle gone') where
  size := h.size
  others := h.others
  short := h.short
  old i x b hx hb hout := by
    have hat := hcons.blockAt_recycle gone
    have hat₁ := hcons₁.blockAt_recycle gone'
    have hb' : dataBlock (st.recycle gone).dinode (st.recycle gone).block i (x / bSize) =
      some b := by
      unfold dataBlock at hb ⊢
      rw [hat]
      exact hb
    obtain ⟨hb₁, hsub⟩ := h.old i x b hx hb' hout
    refine ⟨?_, List.Subset.trans (bytes_recycle st₁ gone' b _)
      (List.Subset.trans hsub (bytes_recycle st gone b _))⟩
    unfold dataBlock at hb₁ ⊢
    rw [hat₁]
    exact hb₁
  new x hlo hhi := by
    obtain ⟨b, hb, hsub⟩ := h.new x hlo hhi
    refine ⟨b, ?_, List.Subset.trans (bytes_recycle st₁ gone' b _) hsub⟩
    unfold dataBlock at hb ⊢
    rw [hcons₁.blockAt_recycle gone']
    exact hb

/-! ## The contents behind a write -/

section Bytes

variable {x : Nat}

theorem contents_of_block (hx : x < (st.dinode i).size)
    (hb : dataBlock st.dinode st.block i (x / bSize) = some b) :
    (st.contents i)[x]? = some (st.block b (x % bSize)) := by
  rw [getElem?_contents, if_pos hx, byteAt, hb]

theorem onDisk_of_block (h : Consistent st) (hx : x < (st.dinode i).size)
    (hb : dataBlock st.dinode st.block i (x / bSize) = some b) :
    (st.onDisk.contents i)[x]? = some (st.disk b (x % bSize)) := by
  have hb' : dataBlock st.onDisk.dinode st.onDisk.block i (x / bSize) = some b := by
    unfold dataBlock at hb ⊢
    rw [State.onDisk, h.blockAt_recycle]
    exact hb
  exact contents_of_block hx hb'

theorem loose_iff (h : Consistent st) (hx : x < (st.dinode i).size)
    (hb : dataBlock st.dinode st.block i (x / bSize) = some b) :
    st.Loose i x ↔ st.block b (x % bSize) ≠ st.disk b (x % bSize) := by
  unfold State.Loose
  rw [contents_of_block hx hb, onDisk_of_block h hx hb, ne_eq, Option.some.injEq]

/-- A byte is as it was, or the one of the disk. -/
theorem kept_byte (h : Consistent st) (hx : x < (st.dinode i).size) (hx' : x < (st'.dinode i).size)
    (hb : dataBlock st.dinode st.block i (x / bSize) = some b)
    (hb' : dataBlock st'.dinode st'.block i (x / bSize) = some b)
    (hsub : st'.bytes b (x % bSize) ⊆ st.bytes b (x % bSize)) :
    (st'.contents i)[x]? = (st.contents i)[x]? ∨
      st.Loose i x ∧ (st'.contents i)[x]? = (st.onDisk.contents i)[x]? := by
  rw [contents_of_block hx' hb', contents_of_block hx hb, onDisk_of_block h hx hb,
    loose_iff h hx hb]
  by_cases heq : st'.block b (x % bSize) = st.block b (x % bSize)
  · exact Or.inl (congrArg some heq)
  · have hdisk : st'.block b (x % bSize) = st.disk b (x % bSize) := by
      rcases List.mem_cons.mp (hsub (block_mem_bytes st' b _)) with hsame | hmem
      · exact absurd hsame heq
      · exact List.mem_singleton.mp hmem
    rw [hdisk] at heq
    exact Or.inr ⟨fun hc => heq hc.symm, congrArg some hdisk⟩

/-- No byte gets loose that was not. -/
theorem kept_loose (h : Consistent st) (h' : Consistent st') (hx : x < (st.dinode i).size)
    (hx' : x < (st'.dinode i).size) (hb : dataBlock st.dinode st.block i (x / bSize) = some b)
    (hb' : dataBlock st'.dinode st'.block i (x / bSize) = some b)
    (hsub : st'.bytes b (x % bSize) ⊆ st.bytes b (x % bSize)) (hloose : st'.Loose i x) :
    st.Loose i x := by
  rw [loose_iff h' hx' hb'] at hloose
  rw [loose_iff h hx hb]
  intro heq
  apply hloose
  have hall : ∀ v ∈ st'.bytes b (x % bSize), v = st.block b (x % bSize) := by
    intro v hv
    have hv := hsub hv
    unfold State.bytes at hv
    rw [← heq] at hv
    simpa using hv
  rw [hall _ (block_mem_bytes ..), hall _ (disk_mem_bytes ..)]

/-- A byte that is not in the file is not loose. -/
theorem lt_size_of_loose (h : st.Loose i x) : x < (st.dinode i).size := by
  by_contra hge
  apply h
  rw [getElem?_contents, getElem?_contents, if_neg hge]
  exact (if_neg hge).symm

theorem dataBlock_free {bn : Nat} (h : (T i).type = .free) : dataBlock T block i bn = none := by
  unfold dataBlock
  cases hp : filePlace i bn with
  | none => rfl
  | some p => rw [Option.bind_some, blockAt_free (by rw [filePlace_inum hp]; exact h)]

end Bytes

/-- A file whose inode and blocks are as they were. -/
theorem kept_of_bytes (h : Consistent st) (h' : Consistent st')
    (hdinode : st'.dinode i = st.dinode i)
    (hbytes : ∀ x b, x < (st.dinode i).size → dataBlock st.dinode st.block i (x / bSize) = some b →
      dataBlock st'.dinode st'.block i (x / bSize) = some b ∧
        st'.bytes b (x % bSize) ⊆ st.bytes b (x % bSize)) : Kept st st' i := by
  have hsize : (st'.dinode i).size = (st.dinode i).size := by rw [hdinode]
  by_cases htype : (st.dinode i).type = .free
  · -- a free inode has no blocks
    have hzero : ∀ s : State, (s.dinode i).type = .free → (s.dinode i).size = (st.dinode i).size →
      ∀ x,
        (s.contents i)[x]? = if x < (st.dinode i).size then some 0 else none := by
      intro s hs hsz x
      rw [getElem?_contents, byteAt, dataBlock_free hs, hsz]
    have htype' : (st'.dinode i).type = .free := by rw [hdinode, htype]
    refine ⟨hdinode, fun x => Or.inl ?_, fun x hx => absurd ?_ hx⟩
    · rw [hzero st htype rfl, hzero st' htype' hsize]
    · rw [hzero st' htype' hsize, hzero st'.onDisk htype' hsize]
  · have hblock : ∀ x, x < (st.dinode i).size →
        ∃ b, dataBlock st.dinode st.block i (x / bSize) = some b := by
      intro x hx
      obtain ⟨p, b, -, -, hb⟩ := (h.owned.filled i htype).dataBlock hx
      exact ⟨b, hb⟩
    refine ⟨hdinode, fun x => ?_, fun x hx => ?_⟩
    · by_cases hx : x < (st.dinode i).size
      · obtain ⟨b, hb⟩ := hblock x hx
        obtain ⟨hb', hsub⟩ := hbytes x b hx hb
        exact kept_byte h hx (by rw [hsize]; exact hx) hb hb' hsub
      · rw [getElem?_contents, getElem?_contents, hsize, if_neg hx, if_neg hx]
        exact Or.inl rfl
    · have hlt := lt_size_of_loose hx
      have hlt' := hlt
      rw [hsize] at hlt
      obtain ⟨b, hb⟩ := hblock x hlt
      obtain ⟨hb', hsub⟩ := hbytes x b hlt hb
      exact kept_loose h h' hlt hlt' hb hb' hsub hx

/-- **Recycling leaves every file as it was**, but for the bytes that the disk did not have. -/
theorem kept_recycle (h : Consistent st) (gone : Nat → Bool) (i : Nat) :
    Kept st (st.recycle gone) i := by
  apply kept_of_bytes h (h.recycle gone) rfl
  intro x b hx hb
  refine ⟨?_, bytes_recycle st gone b _⟩
  unfold dataBlock at hb ⊢
  rw [h.blockAt_recycle]
  exact hb

/-- When `writei` returns `-1`: the offset is beyond the end, the sum wraps, or it is
beyond the greatest size. -/
def Refused (st : State) (k : Slot) (src : List UInt8) (off : Nat) : Prop :=
  (st.inode k).dinode.size < off ∨ 2 ^ 32 ≤ off + src.length ∨ maxFile * bSize < off + src.length

/-- **What `writei` does to the files**, with buffers recycled before it and behind it. -/
inductive Wrote (st : State) (k : Slot) (fault : Option Nat) (src : List UInt8) (off : Nat) :
    Int → State → Prop
  /-- nothing is written -/
  | refused (why : Refused st k src off) (gone : Nat → Bool) :
      Wrote st k fault src off (-1) (st.recycle gone)
  /-- the first `tot` bytes are written -/
  | wrote {tot : Nat} {st' : State} (start : off ≤ (st.inode k).dinode.size) (le : tot ≤ src.length)
      (short : tot < src.length → Short fault src st')
      (size : (st'.contents (st.inode k).inum).length = max (st.contents (st.inode k).inum).length
       (off + tot))
      (contents : ∀ x, ¬ Spilled fault off tot x →
        (st'.contents (st.inode k).inum)[x]? = (overwrite (st.contents (st.inode k).inum) off
         (src.take tot))[x]? ∨
        st.Loose (st.inode k).inum x ∧ (st'.contents (st.inode k).inum)[x]? =
          (overwrite (st.onDisk.contents (st.inode k).inum) off (src.take tot))[x]?)
      (loose : ∀ x, st'.Loose (st.inode k).inum x → Spilled fault off tot x ∨
        st.Loose (st.inode k).inum x ∧ ¬ (off ≤ x ∧ x < off + tot))
      (others : ∀ i, i ≠ (st.inode k).inum → Kept st st' i) :
      Wrote st k fault src off tot st'

theorem Stored.wrote (h : Stored st k fault src off tot st') (hcons : Consistent st)
    (hcons' : Consistent st')
    (hk : st.Held k) (hstart : off ≤ (st.inode k).dinode.size) (hle : tot ≤ src.length) :
    Wrote st k fault src off tot st' := by
  have hself : st.dinode (st.inode k).inum = (st.inode k).dinode :=
    (hcons.synced k hk.1 hk.2).1.symm
  have hsize := h.size
  have hlen := length_contents st (st.inode k).inum
  have hlen' := length_contents st.onDisk (st.inode k).inum
  have htake : (src.take tot).length = tot := by
    rw [List.length_take]
    omega
  have hfilled := (hcons.work hk).filled
  rw [hcons.truth hk, ← hself] at hfilled
  rw [← hself] at hstart
  refine .wrote (by rwa [← hself]) hle h.short ?_ (fun x hx => ?_) (fun x hx => ?_) fun i hi => ?_
  · rw [length_contents, hlen, hsize]
  · rw [getElem?_overwrite (by omega), getElem?_overwrite (by rw [hlen']; exact hstart), htake]
    by_cases hin : off ≤ x ∧ x < off + tot
    · obtain ⟨b, hb, hsub⟩ := h.new x hin.1 hin.2
      have hbyte := List.mem_singleton.mp (hsub (block_mem_bytes st' b _))
      rw [if_pos hin, contents_of_block (by omega) hb, hbyte, List.getElem?_take_of_lt (by omega),
        List.getD_eq_getElem?_getD, List.getElem?_eq_getElem (by omega)]
      exact Or.inl rfl
    · rw [if_neg hin, if_neg hin]
      by_cases hxs : x < (st.dinode (st.inode k).inum).size
      · obtain ⟨p, b, -, -, hb⟩ := hfilled.dataBlock hxs
        obtain ⟨hb', hsub⟩ := h.old _ x b hxs hb fun hc => hc.2.elim hin hx
        exact kept_byte hcons hxs (by omega) hb hb' hsub
      · rw [getElem?_contents, getElem?_contents, if_neg (by omega), if_neg hxs]
        exact Or.inl rfl
  · by_cases hspill : Spilled fault off tot x
    · exact Or.inl hspill
    have hx' := lt_size_of_loose hx
    by_cases hin : off ≤ x ∧ x < off + tot
    · -- both bytes are the one that is written
      obtain ⟨b, hb, hsub⟩ := h.new x hin.1 hin.2
      rw [loose_iff hcons' hx' hb] at hx
      refine absurd ?_ hx
      rw [List.mem_singleton.mp (hsub (block_mem_bytes ..)),
        List.mem_singleton.mp (hsub (disk_mem_bytes ..))]
    · have hxs : x < (st.dinode (st.inode k).inum).size := by omega
      obtain ⟨p, b, -, -, hb⟩ := hfilled.dataBlock hxs
      obtain ⟨hb', hsub⟩ := h.old _ x b hxs hb fun hc => hc.2.elim hin hspill
      exact Or.inr ⟨kept_loose hcons hcons' hxs hx' hb hb' hsub hx, hin⟩
  · exact kept_of_bytes hcons hcons' (h.others i hi) fun x b hx hb => h.old i x b hx hb fun hc =>
      hi hc.1

theorem writei_refused (hoff : off < 2 ^ 32) (hn : src.length < 2 ^ 32)
    (hwhy : Refused st k src off) : writei k fault src off st = .ok (-1, st) := by
  unfold writei
  rw [Halting.bind_of_ok (getInode_apply k st)]
  by_cases hguard : (st.inode k).dinode.size < off ∨ u32 (off + src.length) < off
  · rw [if_pos hguard]
    rfl
  have hsum : u32 (off + src.length) = off + src.length := by
    have hno : ¬ u32 (off + src.length) < off := fun hc => hguard (Or.inr hc)
    unfold u32 at hno ⊢
    omega
  rw [if_neg hguard, hsum, if_pos]
  · rfl
  · rcases hwhy with hbeyond | hwrap | hmax
    · exact absurd (Or.inl hbeyond) hguard
    · unfold u32 at hsum
      omega
    · exact hmax

/-- **`writei` writes a part of its bytes**, whatever stops it. -/
theorem writei_stored (h : Consistent st) (hk : st.Held k) (fault : Option Nat)
    (hno : ¬ Refused st k src off) :
    ∃ (tot : Nat) (st' : State), writei k fault src off st = .ok ((tot : Int), st') ∧
    tot ≤ src.length ∧
      Stored st k fault src off tot st' ∧ Consistent st' ∧ st'.Held k ∧
      (st'.inode k).inum = (st.inode k).inum := by
  suffices hrun : ∃ (tot : Nat) (st' : State), writei k fault src off st = .ok ((tot : Int), st') ∧
    tot ≤ src.length ∧
      Stored st k fault src off tot st' ∧ st'.Held k ∧ (st'.inode k).inum = (st.inode k).inum by
    obtain ⟨tot, st', hrun, hle, hstored, hheld⟩ := hrun
    rcases writei_spec (h.work hk) h fault src off with herr | ⟨r', st₁, hrun', hcons⟩
    · rw [hrun] at herr
      cases herr
    · rw [hrun] at hrun'
      cases hrun'
      exact ⟨tot, st', hrun, hle, hstored, hcons, hheld⟩
  obtain ⟨hstart, hsum⟩ := not_or.mp hno
  obtain ⟨hwrap, hmax⟩ := not_or.mp hsum
  have hu : u32 (off + src.length) = off + src.length := Nat.mod_eq_of_lt (Nat.lt_of_not_le hwrap)
  have hle := Nat.le_of_not_lt hstart
  unfold writei
  rw [Halting.bind_of_ok (getInode_apply k st), hu, if_neg (by omega), if_neg hmax]
  have hfilled : Filled (st.truth k) st.block (st.inode k).inum off := fun bn hbn =>
    (h.work hk).filled bn (lt_of_lt_of_le hbn hle)
  have hno : faults fault 0 = false := by
    cases fault <;> rfl
  obtain ⟨tot, st₁, hrun, hprog, hlen, hshort⟩ := writeLoop_progress (Nat.le_of_not_lt hmax)
    src.length (Nat.sub_le _ _) (Nat.zero_le _) hno (.start (h.work hk) hfilled)
  obtain ⟨st₂, hend, hblock, hdisk, hused, hsb, hdinode, hinum, hheld⟩ :=
    writei_end st₁ k (off + tot)
  rw [Nat.add_zero] at hrun
  rw [Halting.bind_of_ok hrun]
  refine ⟨tot, st₂, ?_, hlen, hprog.stored h hk hshort hblock hdisk hused hsb hdinode,
    hheld hprog.work.held, hinum.trans hprog.grown.inum⟩
  obtain ⟨u, s, hupd, hcopy⟩ := Halting.bind_eq_ok.mp hend
  exact (Halting.bind_of_ok hupd).trans (Halting.bind_of_ok hcopy)

/-! ## Runs -/

/-- `readi` returns the bytes of the contents in its range; none when the sum of offset and length
wraps, and it fails when the user may not be given all of them. -/
def State.Reads (st : State) : Prop :=
  ∀ k, st.Held k → ∀ (fault : Option Nat) (off n : Nat), off < 2 ^ 32 → n < 2 ^ 32 →
    readi k fault off n st = .ok (
    if 2 ^ 32 ≤ off + n then some []
    else if faults fault (((st.contents (st.inode k).inum).drop off).take n).length then none
    else some (((st.contents (st.inode k).inum).drop off).take n), st)

/-- **The files are byte arrays**, whatever buffers are recycled before a call and behind it. -/
structure ByteArrays (st : State) : Prop where
  recycle : ∀ gone i, Kept st (st.recycle gone) i
  read : ∀ gone, (st.recycle gone).Reads
  write : ∀ k, st.Held k → ∀ (fault : Option Nat) (src : List UInt8) (off : Nat), off < 2 ^ 32 →
    src.length < 2 ^ 32 →
    ∀ gone, ∃ r st₁, writei k fault src off (st.recycle gone) = .ok (r, st₁) ∧
    ∀ gone' st', st' = st₁.recycle gone' →
      Wrote st k fault src off r st' ∧ st'.Reads ∧ st'.Held k ∧
      (st'.inode k).inum = (st.inode k).inum

theorem Consistent.reads (h : Consistent st) : st.Reads := fun _ hk fault _ _ hoff hn =>
    readi_eq h hk fault hoff hn

theorem recycle_recycle (st : State) (gone gone' : Nat → Bool) :
    (st.recycle gone).recycle gone' = st.recycle fun b => gone b || gone' b := by
  unfold State.recycle
  congr 1
  funext b
  by_cases h : gone b = true <;> by_cases h' : gone' b = true <;> simp [h, h']

/-- **`writei`**, with buffers recycled before it and behind it. -/
theorem writei_wrote (h : Consistent st) (hk : st.Held k) (fault : Option Nat) (hoff : off < 2 ^ 32)
    (hn : src.length < 2 ^ 32) (gone : Nat → Bool) :
    ∃ r st₁, writei k fault src off (st.recycle gone) = .ok (r, st₁) ∧
    ∀ gone' st', st' = st₁.recycle gone' →
      Wrote st k fault src off r st' ∧ st'.Reads ∧ st'.Held k ∧
      (st'.inode k).inum = (st.inode k).inum := by
  by_cases hwhy : Refused st k src off
  · refine ⟨-1, _, writei_refused hoff hn hwhy, ?_⟩
    rintro gone' st' rfl
    rw [recycle_recycle]
    exact ⟨.refused hwhy _, (h.recycle _).reads, hk, rfl⟩
  · obtain ⟨tot, st₁, hrun, hle, hstored, hcons, hheld, hinum⟩ :=
      writei_stored (h.recycle gone) (k := k) hk fault hwhy
    refine ⟨tot, st₁, hrun, ?_⟩
    rintro gone' st' rfl
    have hwrote := (hstored.recycle h hcons gone').wrote h (hcons.recycle gone') hk
      (Nat.le_of_not_lt (not_or.mp hwhy).1) hle
    exact ⟨hwrote, (hcons.recycle gone').reads, hheld, hinum⟩

/-- **The files are byte arrays in every state that the calls reach.** -/
theorem byte_arrays {st₀ : State} {events : List Event} (himage : Image st₀)
    (hrun : Run Step st₀ events st) :
    ByteArrays st := by
  have hcons := himage.run hrun
  exact ⟨kept_recycle hcons, fun gone => (hcons.recycle gone).reads,
    fun k hk fault src off hoff hn => writei_wrote hcons hk fault hoff hn⟩

/-- A file of three bytes. -/
def writeThree : List Event := [.call (.ialloc .file), .call (.writei 0 none [7, 8, 9] 0)]

/-- Its first byte is overwritten, when the copy of the second one fails. -/
def writeSpilled : List Event := writeThree ++ [.call (.writei 0 (some 1) [1, 2, 3] 0)]

theorem run_passes (events : List Event) (test : State → Bool)
    (h : ((Run.after State.next events emptyDisk).map test) = some true) :
    ∃ st, Run Step emptyDisk events st ∧ test st = true := by
  obtain ⟨st, hst, heq⟩ := Option.map_eq_some_iff.mp h
  have hrun : Run.Meets Step (fun _ _ => True) emptyDisk ([] ++ events) st :=
    Run.meets_of_after (fun s e s' h => ⟨trivial, (step_of_next h : Step s e s')⟩) events
      (.nil emptyDisk) hst
  exact ⟨st, hrun.run, heq⟩

set_option maxRecDepth 100000 in
/-- Three bytes are written, and a second write fails behind its first byte: this byte is read back
until the buffer is recycled. -/
theorem byte_arrays_spilled : ∃ st, Run Step emptyDisk writeSpilled st ∧ st.contents 2 = [1, 8, 9] ∧
    st.onDisk.contents 2 = [7, 8, 9] ∧ ByteArrays st := by
  obtain ⟨st, hrun, htest⟩ := run_passes writeSpilled
    (fun st => decide (st.contents 2 = [1, 8, 9]) &&
    decide (st.onDisk.contents 2 = [7, 8, 9])) (by decide +kernel)
  simp only [Bool.and_eq_true, decide_eq_true_eq] at htest
  exact ⟨st, hrun, htest.1, htest.2, byte_arrays image_emptyDisk hrun⟩

set_option maxRecDepth 100000 in
/-- A range that ends beyond `2 ^ 32` reads nothing; and a write that returns `0` leaves its first
byte behind when the copy of the second fails. -/
theorem not_byte_array : ∃ st, Run Step emptyDisk writeThree st ∧ st.contents 2 = [7, 8, 9] ∧
    st.Held 0 ∧ (st.inode 0).inum = 2 ∧
    (∃ st', readi 0 none 1 (2 ^ 32 - 1) st = .ok (some [], st')) ∧
    ∃ st', writei 0 (some 1) [1, 2, 3] 0 st = .ok (0, st') ∧ st'.contents 2 = [1, 8, 9] := by
  obtain ⟨st, hrun, htest⟩ := run_passes writeThree (fun st => decide (st.contents 2 = [7, 8, 9]) &&
    decide (0 < (st.inode 0).ref) && (st.inode 0).valid && decide ((st.inode 0).inum = 2) &&
    Halting.passes (readi 0 none 1 (2 ^ 32 - 1) st) (fun r _ => decide (r = some [])) &&
    Halting.passes (writei 0 (some 1) [1, 2, 3] 0 st) (fun r st' => decide (r = 0) &&
      decide (st'.contents 2 = [1, 8, 9])))
    (by decide +kernel)
  simp only [Bool.and_eq_true, decide_eq_true_eq, Halting.passes_eq_true] at htest
  obtain ⟨⟨⟨⟨⟨hcontents, href⟩, hvalid⟩, hinum⟩, hread⟩, hwrite⟩ := htest
  obtain ⟨r, st₁, hread, rfl⟩ := hread
  obtain ⟨tot, st₂, hwrite, rfl, hafter⟩ := hwrite
  exact ⟨st, hrun, hcontents, ⟨href, hvalid⟩, hinum, ⟨st₁, hread⟩, st₂, hwrite, hafter⟩

end Xv6.Disk
