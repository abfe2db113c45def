import OsnMp2.Kernel.Log

/-!
# Transactions are atomic across crashes

The buffer cache is described by what it shows at each block and by the references to it; each
function of the cache changes this description in one way. Over it, the disk writes of a
transaction and of a recovery are computed: they are those of a redo log, or a part of them when
the run ends in a panic.

## Main definitions

* `At`: a description of the cache, the log header and the writes so far
* `Idle`, `Booted`: the states in which a transaction and a recovery start
* `Interrupted`: a recovery is interrupted any number of times

## Main results

* `wp_commit`, `wp_transaction`: the writes of a transaction
* `wp_initlog`: the writes of a recovery, which does not panic
* `transaction_atomic`: after a crash and any number of interrupted recoveries
-/

namespace Xv6.Log

open BufferCache Crashing

/-! ## What the functions of the cache do -/

/-- **A description of the state**, from the disk `d₀` on: what the cache shows and the references
to each block, the writes so far, the header in memory and the two variables that control commits;
the log is at `start`, and there are `size` buffers. -/
structure At (start : BlockNo) (size : Nat) (d₀ : BlockNo → Block) (view : BlockNo → Block)
    (refs : BlockNo → Nat) (ws : List (BlockNo × Block)) (lh : LogHeader) (o : Int) (cm : Bool)
    (s : LogState) : Prop where
  ok : s.bcache.Ok s.disk
  start : s.start = start
  size : s.bcache.length = size
  disk : s.disk = applyWrites d₀ ws
  view : s.bcache.view s.disk = view
  loaded : ∀ k, 0 < refs k → s.bcache.Loaded k
  refs : s.bcache.refs = refs
  writes : s.writes = ws
  lh : s.lh = lh
  outstanding : s.outstanding = o
  committing : s.committing = cm

variable {start : BlockNo} {size : Nat} {d₀ view : BlockNo → Block} {refs : BlockNo → Nat}
  {ws : List (BlockNo × Block)} {lh : LogHeader} {o : Int} {cm : Bool} {s : LogState} {b : BlockNo}
  {v : Block} {E : LogState → Prop}

/-- A function of the cache that works on the block `b`. -/
theorem At.moves {c : BufferCache BlockNo Block} {r : Nat}
    (h : At start size d₀ view refs ws lh o cm s)
    (hm : Moves s.bcache c s.disk b v r) (hl : 0 < r → c.Loaded b) :
    At start size d₀ (Function.update view b v) (Function.update refs b r) ws lh o cm
      { s with bcache := c } where
  ok := hm.ok
  start := h.start
  size := hm.length.trans h.size
  disk := h.disk
  view := by rw [← h.view]; exact hm.view
  refs := by rw [← h.refs]; exact hm.refs
  loaded k hk := by
    by_cases hkb : k = b
    · subst hkb
      change 0 < Function.update refs k r k at hk
      rw [Function.update_self] at hk
      exact hl hk
    · change 0 < Function.update refs b r k at hk
      rw [Function.update_of_ne hkb] at hk
      refine hm.loaded k ?_ (h.loaded k hk)
      rw [h.refs]
      exact hk
  writes := h.writes
  lh := h.lh
  outstanding := h.outstanding
  committing := h.committing

/-- **`bread`**: the block gets a reference. It fails when no buffer is free, and nothing has
happened then; that cannot be when fewer blocks than buffers are referenced. -/
theorem wp_bread {Q : Block → LogState → Prop} (h : At start size d₀ view refs ws lh o cm s)
    (hroom : E s ∨ ∃ S : List BlockNo, S.length < size ∧ ∀ k, 0 < refs k → k ∈ S)
    (hQ : ∀ s', At start size d₀ view (Function.update refs b (refs b + 1)) ws lh o cm s' →
      Q (view b) s') : wp (bread b) Q E s := by
  unfold bread
  rw [wp_bind, wp_get]
  cases hg : s.bcache.get b with
  | none =>
    rcases hroom with hE | ⟨S, hlen, hS⟩
    · exact hE
    · obtain ⟨c, hc⟩ := h.ok.get_isSome (S := S) (by rw [h.refs]; exact hS)
        (by rw [h.size]; exact hlen) b
      rw [hg] at hc
      cases hc
  | some c =>
    obtain ⟨hm, hl⟩ := h.ok.load hg
    have hat := h.moves hm fun _ => hl
    rw [h.view, h.refs, Function.update_eq_self] at hat
    have := hQ _ hat
    rw [← congrFun h.view b] at this
    exact this

theorem wp_setData {Q : Unit → LogState → Prop} (h : At start size d₀ view refs ws lh o cm s)
    (hr : 0 < refs b)
    (hQ : ∀ s', At start size d₀ (Function.update view b v) refs ws lh o cm s' → Q () s') :
    wp (setData b v) Q E s := by
  unfold setData
  rw [wp_modify]
  have hl := h.loaded b hr
  have hm := h.ok.setData hl (by rw [h.refs]; exact hr) v
  have hat := h.moves hm fun _ => hm.loaded b (by rw [h.refs]; exact hr) hl
  rw [h.refs, Function.update_eq_self] at hat
  exact hQ _ hat

/-- **`bwrite`**: the block goes to the disk as the cache shows it. -/
theorem wp_bwrite {Q : Unit → LogState → Prop} (h : At start size d₀ view refs ws lh o cm s)
    (hr : 0 < refs b)
    (hQ : ∀ s', At start size d₀ view refs (ws ++ [(b, view b)]) lh o cm s' → Q () s') :
    wp (bwrite b) Q E s := by
  unfold bwrite
  rw [wp_modify]
  obtain ⟨hok, hview⟩ := h.ok.store (h.loaded b hr)
  refine hQ _ ⟨hok, h.start, h.size, ?_, hview.trans h.view, h.loaded, h.refs, ?_, h.lh,
    h.outstanding, h.committing⟩
  · show Function.update s.disk b (s.bcache.view s.disk b) = applyWrites d₀ (ws ++ [(b, view b)])
    rw [applyWrites_concat, ← h.disk, ← h.view]
  · show s.writes ++ [(b, s.bcache.view s.disk b)] = ws ++ [(b, view b)]
    rw [h.writes, h.view]

/-- **`brelse`** and **`bunpin`**: a reference less; the last one of a block that is as on the
disk. -/
theorem wp_brelse {Q : Unit → LogState → Prop} (h : At start size d₀ view refs ws lh o cm s)
    (hr : 0 < refs b) (hlast : refs b = 1 → view b = applyWrites d₀ ws b)
    (hQ : ∀ s', At start size d₀ view (Function.update refs b (refs b - 1)) ws lh o cm s' →
      Q () s') :
    wp (brelse b) Q E s := by
  unfold brelse
  rw [wp_modify]
  have hl := h.loaded b hr
  have hm := h.ok.put hl (by rw [h.refs, h.view, h.disk]; exact hlast) (by rw [h.refs]; exact hr)
  have hat := h.moves hm fun _ => hm.loaded b (by rw [h.refs]; exact hr) hl
  rw [h.view, h.refs, Function.update_eq_self] at hat
  exact hQ _ hat

theorem wp_bunpin {Q : Unit → LogState → Prop} (h : At start size d₀ view refs ws lh o cm s)
    (hr : 0 < refs b) (hlast : refs b = 1 → view b = applyWrites d₀ ws b)
    (hQ : ∀ s', At start size d₀ view (Function.update refs b (refs b - 1)) ws lh o cm s' →
      Q () s') :
    wp (bunpin b) Q E s := by
  unfold bunpin
  rw [wp_modify]
  have hl := h.loaded b hr
  have hm := h.ok.dereference hl (by rw [h.refs, h.view, h.disk]; exact hlast)
    (by rw [h.refs]; exact hr)
  have hat := h.moves hm fun _ => hm.loaded b (by rw [h.refs]; exact hr) hl
  rw [h.view, h.refs, Function.update_eq_self] at hat
  exact hQ _ hat

theorem wp_bpin {Q : Unit → LogState → Prop} (h : At start size d₀ view refs ws lh o cm s)
    (hr : 0 < refs b)
    (hQ : ∀ s', At start size d₀ view (Function.update refs b (refs b + 1)) ws lh o cm s' →
      Q () s') :
    wp (bpin b) Q E s := by
  unfold bpin
  rw [wp_modify]
  have hl := h.loaded b hr
  have hr' : 0 < s.bcache.refs b := by rw [h.refs]; exact hr
  obtain ⟨b', hb', -⟩ := buffer_of_refs hr'
  have hm := h.ok.reference hb'
  have hat := h.moves hm fun _ => hm.loaded b hr' hl
  rw [h.view, h.refs, Function.update_eq_self] at hat
  exact hQ _ hat

/-- A block without references is shown as it is on the disk. -/
theorem At.view_of_unreferenced (h : At start size d₀ view refs ws lh o cm s) (hr : refs b = 0) :
    view b = applyWrites d₀ ws b := by
  rw [← h.view, ← h.disk]
  rw [← h.refs] at hr
  unfold BufferCache.view
  cases hb : s.bcache.buffer b with
  | none => rfl
  | some b' =>
    dsimp only
    split
    · next hv => exact h.ok.clean b b' hb hv (by rw [← refs_of_buffer hb]; exact hr)
    · rfl

/-! ## Copying and installing a block -/

/-- One reference to each of the blocks. -/
def pins (ks : List BlockNo) (k : BlockNo) : Nat := if k ∈ ks then 1 else 0

/-- The blocks `ks` are pinned and show `new`, and no other block is referenced. -/
def Pinned (start : BlockNo) (size : Nat) (d₀ : BlockNo → Block) (ks : List BlockNo)
    (new : BlockNo → Block)
    (ws : List (BlockNo × Block)) (lh : LogHeader) (o : Int) (cm : Bool) (s : LogState) : Prop :=
  ∃ view, At start size d₀ view (pins ks) ws lh o cm s ∧ ∀ k ∈ ks, view k = new k

variable {ks : List BlockNo} {new : BlockNo → Block} {tail : Nat}

theorem pins_of_not (h : b ∉ ks) : pins ks b = 0 := if_neg h

theorem pins_of_mem (h : b ∈ ks) : pins ks b = 1 := if_pos h

/-- Why the cache has a buffer, or what a panic leaves. -/
def Room (size : Nat) (ks : List BlockNo) (ws : List (BlockNo × Block)) (E : LogState → Prop) :
    Prop :=
  (∀ s : LogState, s.writes = ws → E s) ∨ ks.length + 1 < size

theorem Room.first (h : Room size ks ws E) (hw : s.writes = ws) :
    E s ∨ ∃ S : List BlockNo, S.length < size ∧ ∀ k, 0 < pins ks k → k ∈ S := by
  rcases h with hE | hlen
  · exact Or.inl (hE s hw)
  · refine Or.inr ⟨ks, by omega, fun k hk => ?_⟩
    by_contra hn
    rw [pins_of_not hn] at hk
    exact absurd hk (Nat.lt_irrefl 0)

theorem Room.second (h : Room size ks ws E) (hw : s.writes = ws) {r : Nat} :
    E s ∨ ∃ S : List BlockNo, S.length < size ∧ ∀ k, 0 < Function.update (pins ks) b r k →
    k ∈ S := by
  rcases h with hE | hlen
  · exact Or.inl (hE s hw)
  · refine Or.inr ⟨b :: ks, by simpa using hlen, fun k hk => ?_⟩
    by_cases hkb : k = b
    · rw [hkb]
      exact List.mem_cons_self
    · rw [Function.update_of_ne hkb] at hk
      by_contra hn
      rw [pins_of_not fun hm => hn (List.mem_cons_of_mem b hm)] at hk
      exact absurd hk (Nat.lt_irrefl 0)

/-- **`write_head`** writes the header over what the block holds. -/
theorem wp_writeHead (h : Pinned start size d₀ ks new ws lh o cm s) (hroom : Room size ks ws E)
    (hstart : start ∉ ks) :
    wp writeHead (fun _ => Pinned start size d₀ ks new
      (ws ++ [(start, encodeHead lh (applyWrites d₀ ws start))]) lh o cm) E s := by
  obtain ⟨view, hat, hview⟩ := h
  have hz := pins_of_not hstart
  have hdisk := hat.view_of_unreferenced (b := start) hz
  unfold writeHead
  simp only [wp_bind, wp_get, hat.start]
  refine wp_bread hat (hroom.first hat.writes) fun s₁ h₁ => ?_
  rw [h₁.lh]
  refine wp_setData h₁ (by simp) fun s₂ h₂ => ?_
  refine wp_bwrite h₂ (by simp) fun s₃ h₃ => ?_
  refine wp_brelse h₃ (by simp) (fun _ => by simp [applyWrites_concat]) fun s₄ h₄ => ?_
  simp only [Function.update_self, Function.update_idem, hz, Nat.zero_add, Nat.sub_self] at h₄
  rw [← hz, Function.update_eq_self, hdisk] at h₄
  refine ⟨_, h₄, fun k hk => ?_⟩
  have hne : k ≠ start := by
    rintro rfl
    exact hstart hk
  rw [Function.update_of_ne hne]
  exact hview k hk

/-- A log block is neither pinned nor one of the blocks of the transaction. -/
theorem slot_not_mem (hhome : ∀ k ∈ ks, (redoLog start).Home k) (htail : tail < logBlocks) :
    slot start tail ∉ ks := fun hmem => (hhome _ hmem).2 tail htail rfl

/-- **A step of `write_log`** copies a block to the log. -/
theorem wp_writeLog_body (h : Pinned start size d₀ ks new ws lh o cm s) (hroom : Room size ks ws E)
    (hhome : ∀ k ∈ ks, (redoLog start).Home k) (htail : tail < logBlocks) (hb : b ∈ ks) :
    wp (writeLogBody tail b)
      (fun _ => Pinned start size d₀ ks new (ws ++ [(slot start tail, new b)]) lh o cm) E s := by
  unfold writeLogBody
  obtain ⟨view, hat, hview⟩ := h
  have hslot := slot_not_mem hhome htail
  have hne : b ≠ slot start tail := fun heq => hslot (heq ▸ hb)
  have hz := pins_of_not hslot
  simp only [wp_bind, wp_get, hat.start]
  refine wp_bread hat (hroom.first hat.writes) fun s₁ h₁ => ?_
  refine wp_bread h₁ (hroom.second h₁.writes) fun s₂ h₂ => ?_
  refine wp_setData h₂ (by simp [Function.update_of_ne hne.symm]) fun s₃ h₃ => ?_
  refine wp_bwrite h₃ (by simp [Function.update_of_ne hne.symm]) fun s₄ h₄ => ?_
  refine wp_brelse h₄ (by simp) (fun hone => ?_) fun s₅ h₅ => ?_
  · -- the block is still pinned
    simp [Function.update_of_ne hne, pins_of_mem hb] at hone
  refine wp_brelse h₅ (by simp [Function.update_of_ne hne.symm])
    (fun _ => by simp [applyWrites_concat]) fun s₆ h₆ => ?_
  simp only [Function.update_self, Function.update_of_ne hne, Function.update_of_ne hne.symm,
    hview b hb, hz, pins_of_mem hb, Function.update_idem, Nat.zero_add, Nat.sub_self,
    Nat.add_sub_cancel] at h₆
  have hrefs : Function.update (Function.update (Function.update (pins ks) (slot start tail) 1) b 1)
      (slot start tail) 0 = pins ks := by
    rw [Function.update_comm hne, Function.update_idem, ← hz, Function.update_eq_self,
      ← pins_of_mem hb, Function.update_eq_self]
  rw [hrefs] at h₆
  refine ⟨_, h₆, fun k hk => ?_⟩
  have hk' : k ≠ slot start tail := by
    rintro rfl
    exact hslot hk
  rw [Function.update_of_ne hk']
  exact hview k hk

/-- **A step of `install_trans`** in a commit writes a block to its place and unpins it. -/
theorem wp_install_body (h : Pinned start size d₀ (b :: ks) new ws lh o cm s)
    (hroom : Room size (b :: ks) ws E)
    (hhome : ∀ k ∈ b :: ks, (redoLog start).Home k) (htail : tail < logBlocks) (hb : b ∉ ks)
    (hlog : applyWrites d₀ ws (slot start tail) = new b) :
    wp (installBody false tail b) (fun _ => Pinned start size d₀ ks new (ws ++ [(b, new b)]) lh
      o cm) E s := by
  unfold installBody
  obtain ⟨view, hat, hview⟩ := h
  have hslot := slot_not_mem hhome htail
  have hne : b ≠ slot start tail := fun heq => hslot (heq ▸ List.mem_cons_self)
  have hz := pins_of_not hslot
  have hone := pins_of_mem (List.mem_cons_self (a := b) (l := ks))
  have hdata : view (slot start tail) = new b := (hat.view_of_unreferenced hz).trans hlog
  simp only [wp_bind, wp_get, hat.start, if_true]
  refine wp_bread hat (hroom.first hat.writes) fun s₁ h₁ => ?_
  refine wp_bread h₁ (hroom.second h₁.writes) fun s₂ h₂ => ?_
  refine wp_setData h₂ (by simp) fun s₃ h₃ => ?_
  refine wp_bwrite h₃ (by simp) fun s₄ h₄ => ?_
  refine wp_bunpin h₄ (by simp) (fun h2 => ?_) fun s₅ h₅ => ?_
  · simp [Function.update_of_ne hne, hone] at h2
  refine wp_brelse h₅ (by simp [Function.update_of_ne hne.symm]) (fun _ => ?_) fun s₆ h₆ => ?_
  · rw [applyWrites_concat, Function.update_of_ne hne.symm, Function.update_of_ne hne.symm,
      hdata, hlog]
  refine wp_brelse h₆ (by simp [Function.update_of_ne hne, hone])
    (fun _ => by simp [applyWrites_concat]) fun s₇ h₇ => ?_
  simp only [Function.update_self, Function.update_of_ne hne, Function.update_of_ne hne.symm,
    hdata, hz, hone, Function.update_idem, Nat.zero_add, Nat.sub_self, Nat.add_sub_cancel] at h₇
  have hrefs : Function.update (Function.update (Function.update (Function.update (pins (b :: ks))
      (slot start tail) 1) b 1) (slot start tail) 0) b 0 = pins ks := by
    funext k
    by_cases hkb : k = b
    · rw [hkb, Function.update_self, pins_of_not hb]
    · rw [Function.update_of_ne hkb]
      by_cases hk : k = slot start tail
      · rw [hk, Function.update_self, pins_of_not fun hm => hslot (List.mem_cons_of_mem b hm)]
      · rw [Function.update_of_ne hk, Function.update_of_ne hkb, Function.update_of_ne hk]
        simp [pins, hkb]
  rw [hrefs] at h₇
  refine ⟨_, h₇, fun k hk => ?_⟩
  have hkb : k ≠ b := by
    rintro rfl
    exact hb hk
  rw [Function.update_of_ne hkb]
  exact hview k (List.mem_cons_of_mem b hk)

/-- **A step of `install_trans`** in a recovery writes a block to its place. -/
theorem wp_recover_body (h : Pinned start size d₀ [] new ws lh o cm s) (hsize : 2 ≤ size)
    (hhome : (redoLog start).Home b) (htail : tail < logBlocks) :
    wp (installBody true tail b)
      (fun _ => Pinned start size d₀ [] new (ws ++ [(b, applyWrites d₀ ws (slot start tail))]) lh
       o cm) E s := by
  unfold installBody
  obtain ⟨view, hat, -⟩ := h
  have hne : b ≠ slot start tail := hhome.2 tail htail
  have hz : ∀ k, pins [] k = 0 := fun k => pins_of_not List.not_mem_nil
  have hdata := hat.view_of_unreferenced (b := slot start tail) (hz _)
  have hroom : Room size [] ws E := Or.inr hsize
  simp only [wp_bind, wp_get, hat.start, Bool.true_eq_false, if_false]
  refine wp_bread hat (hroom.first hat.writes) fun s₁ h₁ => ?_
  refine wp_bread h₁ (hroom.second h₁.writes) fun s₂ h₂ => ?_
  refine wp_setData h₂ (by simp) fun s₃ h₃ => ?_
  refine wp_bwrite h₃ (by simp) fun s₄ h₄ => ?_
  refine wp_brelse h₄ (by simp [Function.update_of_ne hne.symm]) (fun _ => ?_) fun s₅ h₅ => ?_
  · rw [applyWrites_concat, Function.update_of_ne hne.symm, Function.update_of_ne hne.symm, hdata]
  refine wp_brelse h₅ (by simp [Function.update_of_ne hne]) (fun _ => by simp [applyWrites_concat])
    fun s₆ h₆ => ?_
  simp only [Function.update_self, Function.update_of_ne hne, Function.update_of_ne hne.symm,
    hdata, hz, Nat.zero_add, Nat.sub_self] at h₆
  have hrefs : Function.update (Function.update (Function.update (Function.update (pins [])
      (slot start tail) 1) b 1) (slot start tail) 0) b 0 = pins [] := by
    funext k
    by_cases hkb : k = b
    · rw [hkb, Function.update_self, hz]
    · rw [Function.update_of_ne hkb]
      by_cases hk : k = slot start tail
      · rw [hk, Function.update_self, hz]
      · rw [Function.update_of_ne hk, Function.update_of_ne hkb, Function.update_of_ne hk]
  rw [hrefs] at h₆
  exact ⟨_, h₆, fun k hk => absurd hk List.not_mem_nil⟩

/-! ## The header -/

/-- The header in memory lists the blocks `ks`. -/
structure Lists (lh : LogHeader) (ks : List BlockNo) : Prop where
  n : lh.n = ks.length
  block : ∀ i, i < ks.length → ks[i]? = some (lh.block i)

theorem toInt_ofInt {n : Int} (h0 : 0 ≤ n) (hn : n ≤ logBlocks) :
    (BitVec.ofInt 32 n).toInt = n := by
  rw [BitVec.toInt_ofInt]
  simp only [logBlocks] at hn
  apply Int.bmod_eq_of_le <;> omega

/-- **What is written is read back**: the header on the disk names the blocks that the one in memory
lists. -/
theorem entries_encodeHead (h : Lists lh ks) (hlen : ks.length ≤ logBlocks) (v : Block) :
    entries (encodeHead lh v) = ks := by
  have hn : ((encodeHead lh v).word 0).toInt = ks.length := by
    show (BitVec.ofInt 32 lh.n).toInt = ks.length
    rw [h.n]
    exact toInt_ofInt (Int.natCast_nonneg _) (Int.ofNat_le.mpr hlen)
  unfold entries
  rw [hn, Int.toNat_natCast]
  apply List.ext_getElem?
  intro i
  rw [List.getElem?_map]
  by_cases hi : i < ks.length
  · rw [List.getElem?_range hi, h.block i hi, Option.map_some]
    simp only [logBlocks] at hlen
    simp only [Block.word, encodeHead, h.n]
    rw [dif_pos (by omega), if_neg (by omega), if_pos (by simpa using hi)]
    rfl
  · rw [List.getElem?_eq_none (by simpa using hi), List.getElem?_eq_none (by omega)]
    rfl

/-- The header that is cleared lists nothing. -/
theorem Lists.clear (lh : LogHeader) : Lists { lh with n := 0 } [] :=
  ⟨rfl, fun i hi => absurd hi (Nat.not_lt_zero i)⟩

/-- What `read_head` makes of a block. -/
theorem decodeHead_lists (v : Block) (old : LogHeader) (i : Nat) (hi : i < (entries v).length) :
    (entries v)[i]? = some ((decodeHead v old).block i) := by
  unfold entries at hi ⊢
  rw [List.length_map, List.length_range] at hi
  rw [List.getElem?_map, List.getElem?_range hi, Option.map_some]
  simp only [decodeHead]
  rw [if_pos hi]

theorem decodeHead_n (v : Block) (old : LogHeader) :
    (decodeHead v old).n.toNat = (entries v).length := by
  unfold entries
  rw [List.length_map, List.length_range]
  rfl

/-! ## Commit -/

theorem getElem?_zipIdx_map {α β : Type} {f : α × Nat → β} {l : List α} {i : Nat} {x : α}
    (h : l[i]? = some x) : (l.zipIdx.map f)[i]? = some (f (x, i)) := by
  rw [List.getElem?_map, List.getElem?_zipIdx, h]
  simp

theorem take_succ_of_getElem? {α : Type} {l : List α} {i : Nat} {x : α} (h : l[i]? = some x) :
    l.take (i + 1) = l.take i ++ [x] := by
  rw [List.take_add_one, h]
  rfl

/-- While the blocks are written to their places, the log stays as it is. -/
theorem Full.installed (hfull : (redoLog start).Full ks new (applyWrites d₀ ws))
    (hlen : ks.length ≤ logBlocks) (hhome : ∀ k ∈ ks, (redoLog start).Home k) (j : Nat) :
    (redoLog start).Full ks new (applyWrites d₀ (ws ++ (RedoLog.installWrites ks new).take j)) := by
  rw [applyWrites_append]
  exact hfull.install hlen hhome fun w hw => (RedoLog.mem_installWrites (List.mem_of_mem_take hw)).1

theorem wp_writeLog (h : Pinned start size d₀ ks new ws lh o cm s) (hl : Lists lh ks)
    (hhome : ∀ k ∈ ks, (redoLog start).Home k) (hlen : ks.length ≤ logBlocks)
    (hE : ∀ s : LogState, s.writes <+: ws ++ (redoLog start).slotWrites ks new → E s) :
    wp writeLog (fun _ => Pinned start size d₀ ks new (ws ++ (redoLog start).slotWrites ks new) lh
      o cm) E s := by
  obtain ⟨view, hat, hview⟩ := h
  unfold writeLog
  rw [wp_bind, wp_get, hat.lh]
  dsimp only
  rw [hl.n, Int.toNat_natCast]
  refine wp_mono (wp_loop (I := fun j s => Pinned start size d₀ ks new
    (ws ++ ((redoLog start).slotWrites ks new).take j) lh o cm s) ks.length (fun j s _ hj hs => ?_)
    ⟨view, by simpa using hat, hview⟩) (fun _ s' hs' => ?_) fun _ h => h
  · have hblock := hl.block j (by omega)
    have hmem : lh.block j ∈ ks := List.mem_of_getElem? hblock
    refine wp_mono (wp_writeLog_body hs (Or.inl fun s' hs' => hE s' ?_) hhome (by omega) hmem)
      (fun _ s' hs' => ?_) fun _ h => h
    · rw [hs']
      exact (List.prefix_append_right_inj ws).mpr (List.take_prefix _ _)
    · have hwrite : ((redoLog start).slotWrites ks new)[j]? = some (slot start j,
        new (lh.block j)) :=
        getElem?_zipIdx_map hblock
      rw [take_succ_of_getElem? hwrite, ← List.append_assoc]
      exact hs'
  · rw [List.take_of_length_le (by simp [RedoLog.slotWrites])] at hs'
    exact hs'

theorem wp_installTrans (h : Pinned start size d₀ ks new ws lh o cm s) (hl : Lists lh ks)
    (hhome : ∀ k ∈ ks, (redoLog start).Home k) (hnd : ks.Nodup) (hlen : ks.length ≤ logBlocks)
    (hfull : (redoLog start).Full ks new (applyWrites d₀ ws))
    (hE : ∀ s : LogState, s.writes <+: ws ++ RedoLog.installWrites ks new → E s) :
    wp (installTrans false)
      (fun _ => Pinned start size d₀ [] new (ws ++ RedoLog.installWrites ks new) lh o cm) E s := by
  obtain ⟨view, hat, hview⟩ := h
  unfold installTrans
  rw [wp_bind, wp_get, hat.lh]
  dsimp only
  rw [hl.n, Int.toNat_natCast]
  refine wp_mono (wp_loop (I := fun j s => Pinned start size d₀ (ks.drop j) new
    (ws ++ (RedoLog.installWrites ks new).take j) lh o cm s) ks.length (fun j s _ hj hs => ?_)
    ⟨view, by simpa using hat, by simpa using hview⟩) (fun _ s' hs' => ?_) fun _ h => h
  · have hblock := hl.block j (by omega)
    have hdrop : ks.drop j = lh.block j :: ks.drop (j + 1) := by
      rw [List.drop_eq_getElem_cons (by omega)]
      congr 1
      exact Option.some.inj (by rw [← hblock, List.getElem?_eq_getElem])
    have hsub : ∀ k ∈ ks.drop j, k ∈ ks := fun k hk => List.mem_of_mem_drop hk
    have hnd' := hnd.sublist (List.drop_sublist j ks)
    rw [hdrop] at hs hsub hnd'
    -- what is in the log block is still what was logged
    have hlog := (Full.installed hfull hlen hhome j).slots (lh.block j, j)
      (List.mem_zipIdx_iff_getElem?.mpr hblock)
    refine wp_mono (wp_install_body hs (Or.inl fun s' hs' => hE s' ?_)
      (fun k hk => hhome k (hsub k hk))
      (by omega) (List.nodup_cons.mp hnd').1 hlog) (fun _ s' hs' => ?_) fun _ h => h
    · rw [hs']
      exact (List.prefix_append_right_inj ws).mpr (List.take_prefix _ _)
    · have hwrite : (RedoLog.installWrites ks new)[j]? = some (lh.block j, new (lh.block j)) := by
        rw [RedoLog.installWrites, List.getElem?_map, hblock]
        rfl
      rw [take_succ_of_getElem? hwrite, ← List.append_assoc]
      exact hs'
  · rw [List.take_of_length_le (by simp [RedoLog.installWrites]),
      List.drop_of_length_le (Nat.le_of_eq (Nat.zero_add _).symm)] at hs'
    exact hs'

/-- Between two functions of the cache, the header in memory may change. -/
theorem Pinned.setHead {lh' : LogHeader} {s' : LogState}
    (h : Pinned start size d₀ ks new ws lh o cm s)
    (hs : s' = { s with lh := lh' }) : Pinned start size d₀ ks new ws lh' o cm s' := by
  obtain ⟨view, hat, hview⟩ := h
  subst hs
  exact ⟨view, { hat with lh := rfl }, hview⟩

/-- What a crash in a transaction from `old` to `new` may leave on the disk. -/
def Recoverable (start : BlockNo) (old new d : BlockNo → Block) : Prop :=
  (redoLog start).Empty old d ∨ (redoLog start).Empty new d ∨
    ∃ ks : List BlockNo, ks.length ≤ logBlocks ∧ (∀ k ∈ ks, (redoLog start).Home k) ∧
      (redoLog start).Full ks new d

/-- Every crash during the writes leaves a disk that can be recovered. -/
def Safe (start : BlockNo) (d₀ new : BlockNo → Block) (ws : List (BlockNo × Block)) : Prop :=
  ∀ l, l <+: ws → Recoverable start d₀ new (applyWrites d₀ l)

theorem Safe.mono {l : List (BlockNo × Block)} (h : Safe start d₀ new ws) (hl : l <+: ws) :
    Safe start d₀ new l := fun l' hl' => h l' (hl'.trans hl)

/-- **The writes of a commit** are safe, and make the change. -/
theorem safe_commitWrites {h h₀ : Block} (hd : entries (d₀ start) = [])
    (hlen : ks.length ≤ logBlocks)
    (hhome : ∀ k ∈ ks, (redoLog start).Home k) (hh : entries h = ks) (h₀' : entries h₀ = [])
    (hsame : ∀ k, k ∉ ks → new k = d₀ k) :
    Safe start d₀ new ((redoLog start).commitWrites ks new h h₀) ∧
    (redoLog start).Empty new (applyWrites d₀ ((redoLog start).commitWrites ks new h h₀)) := by
  have hempty : (redoLog start).Empty d₀ d₀ := ⟨hd, fun _ _ => rfl⟩
  refine ⟨fun l hl => ?_, (RedoLog.crash_commit hempty hlen hhome hh h₀' hsame
    (List.prefix_refl _)).2 rfl⟩
  rcases (RedoLog.crash_commit hempty hlen hhome hh h₀' hsame hl).1 with hold | hfull | hnew
  · exact Or.inl hold
  · exact Or.inr (Or.inr ⟨ks, hlen, hhome, hfull⟩)
  · exact Or.inr (Or.inl hnew)

theorem wp_commit (h : Pinned start size d₀ ks new [] lh o cm s) (hl : Lists lh ks)
    (hd : entries (d₀ start) = []) (hhome : ∀ k ∈ ks, (redoLog start).Home k) (hnd : ks.Nodup)
    (hlen : ks.length ≤ logBlocks) (hsame : ∀ k, k ∉ ks → new k = d₀ k) :
    wp commit (fun _ s' => Safe start d₀ new s'.writes ∧ s'.disk = applyWrites d₀ s'.writes ∧
        (redoLog start).Empty new s'.disk)
      (fun s' => Safe start d₀ new s'.writes) s := by
  have hstart : start ∉ ks := fun hmem => (hhome start hmem).1 rfl
  have hempty : (redoLog start).Empty d₀ d₀ := ⟨hd, fun _ _ => rfl⟩
  obtain ⟨view, hat, hview⟩ := h
  unfold commit
  rw [wp_bind, wp_get, hat.lh]
  dsimp only
  rw [hl.n]
  by_cases hks : ks = []
  · -- there is nothing to commit
    subst hks
    have hnew : new = d₀ := funext fun k => hsame k List.not_mem_nil
    rw [List.length_nil, if_neg (by omega), wp_pure, hat.writes, hat.disk, hnew]
    refine ⟨fun l hl => ?_, rfl, hempty⟩
    rw [List.prefix_nil.mp hl]
    exact Or.inl hempty
  · have hpos := List.length_pos_of_ne_nil hks
    rw [if_pos (by omega)]
    -- the two headers that are written
    let w₁ := (redoLog start).slotWrites ks new
    let e₁ := encodeHead lh (applyWrites d₀ w₁ start)
    let w₂ := w₁ ++ [(start, e₁)]
    let w₃ := w₂ ++ RedoLog.installWrites ks new
    let e₂ := encodeHead { lh with n := 0 } (applyWrites d₀ w₃ start)
    let w₄ := w₃ ++ [(start, e₂)]
    have hh := entries_encodeHead hl hlen (applyWrites d₀ w₁ start)
    have hh₀ := entries_encodeHead (Lists.clear lh) (Nat.zero_le _) (applyWrites d₀ w₃ start)
    have hwhole : w₄ = (redoLog start).commitWrites ks new e₁ e₂ := by
      simp only [w₄, w₃, w₂, RedoLog.commitWrites, List.append_assoc, List.singleton_append]
      rfl
    obtain ⟨hsafe, hdone⟩ := safe_commitWrites hd hlen hhome hh hh₀ hsame
    rw [← hwhole] at hsafe hdone
    have hp₁ : w₁ <+: w₂ := List.prefix_append _ _
    have hp₂ : w₂ <+: w₃ := List.prefix_append _ _
    have hp₃ : w₃ <+: w₄ := List.prefix_append _ _
    simp only [wp_bind]
    refine wp_mono (wp_writeLog ⟨view, hat, hview⟩ hl hhome hlen fun s' hs' =>
      hsafe.mono (hs'.trans (hp₁.trans (hp₂.trans hp₃)))) (fun _ s₁ h₁ => ?_) fun _ h => h
    refine wp_mono (wp_writeHead h₁ (Or.inl fun s' hs' => hsafe.mono
      (hs' ▸ hp₁.trans (hp₂.trans hp₃))) hstart) (fun _ s₂ h₂ => ?_) fun _ h => h
    have hfull := hempty.commit hlen hh hsame
    refine wp_mono (wp_installTrans h₂ hl hhome hnd hlen hfull fun s' hs' =>
      hsafe.mono (hs'.trans hp₃)) (fun _ s₃ h₃ => ?_) fun _ h => h
    obtain ⟨view₃, hat₃, hview₃⟩ := h₃
    unfold clearHead
    rw [wp_modify, hat₃.lh]
    refine wp_mono (wp_writeHead (Pinned.setHead ⟨view₃, hat₃, hview₃⟩ rfl) (Or.inl fun s' hs' =>
      hsafe.mono (hs' ▸ hp₃)) List.not_mem_nil) (fun _ s₄ h₄ => ?_) fun _ h => h
    obtain ⟨_, hat₄, -⟩ := h₄
    rw [hat₄.disk, hat₄.writes]
    exact ⟨hsafe, rfl, hdone⟩

/-! ## Logging -/

theorem At.setHead {lh' : LogHeader} {s' : LogState} (h : At start size d₀ view refs ws lh o cm s)
    (hs : s' = { s with lh := lh' }) : At start size d₀ view refs ws lh' o cm s' := by
  subst hs
  exact { h with lh := rfl }

/-- The place of a block that is in the header. -/
theorem findBlock_of_mem (hl : Lists lh ks) (hb : b ∈ ks) :
    findBlock lh b < ks.length ∧ lh.block (findBlock lh b) = b := by
  obtain ⟨i, hi, hget⟩ := List.getElem_of_mem hb
  have hblock : lh.block i = b := by
    have := hl.block i hi
    rw [List.getElem?_eq_getElem hi, hget] at this
    exact (Option.some.inj this).symm
  have hsome : ((List.range lh.n.toNat).find? fun i => lh.block i = b).isSome := by
    rw [List.find?_isSome]
    exact ⟨i, by rw [hl.n]; simpa using hi, by simpa using hblock⟩
  obtain ⟨j, hj⟩ := Option.isSome_iff_exists.mp hsome
  have hmem := List.mem_range.mp (List.mem_of_find?_eq_some hj)
  have hprop := List.find?_some hj
  rw [hl.n, Int.toNat_natCast] at hmem
  unfold findBlock
  rw [hj]
  exact ⟨hmem, by simpa using hprop⟩

/-- A block that is not in the header gets the place behind the last one. -/
theorem findBlock_of_not (hl : Lists lh ks) (hb : b ∉ ks) : findBlock lh b = ks.length := by
  have hnone : ((List.range lh.n.toNat).find? fun i => lh.block i = b) = none := by
    rw [List.find?_eq_none]
    intro i hi
    rw [hl.n, Int.toNat_natCast, List.mem_range] at hi
    have hmem := List.mem_of_getElem? (hl.block i hi)
    intro heq
    rw [of_decide_eq_true heq] at hmem
    exact hb hmem
  unfold findBlock
  rw [hnone, hl.n]
  rfl

theorem Lists.push (hl : Lists lh ks) (b : BlockNo) :
    Lists { n := lh.n + 1, block := Function.update lh.block ks.length b } (ks ++ [b]) where
  n := by
    rw [List.length_append, hl.n]
    rfl
  block i hi := by
    rw [List.length_append, List.length_singleton] at hi
    show (ks ++ [b])[i]? = some (Function.update lh.block ks.length b i)
    by_cases heq : i = ks.length
    · rw [heq, Function.update_self, List.getElem?_append_right (Nat.le_refl _), Nat.sub_self]
      rfl
    · rw [Function.update_of_ne heq, List.getElem?_append_left (by omega)]
      exact hl.block i (by omega)

/-- **`log_write`** in a transaction: the block is in the header already, or it is added and pinned.
It panics when the header is full, and nothing has been written then. -/
theorem wp_logWrite {Q : Unit → LogState → Prop} (h : At start size d₀ view refs [] lh 1 false s)
    (hr : 0 < refs b) (hl : Lists lh ks) (hE : ∀ s : LogState, s.writes = [] → E s)
    (hmem : b ∈ ks → ∀ s', At start size d₀ view refs [] lh 1 false s' → Q () s')
    (hnew : b ∉ ks → ks.length < logBlocks → ∀ lh' s', Lists lh' (ks ++ [b]) →
      At start size d₀ view (Function.update refs b (refs b + 1)) [] lh' 1 false s' → Q () s') :
    wp (logWrite b) Q E s := by
  unfold logWrite
  rw [wp_bind, wp_get]
  dsimp only
  split
  · exact hE s h.writes
  · next hroom =>
    rw [h.outstanding, if_neg (by omega), wp_bind, wp_modify, h.lh]
    rw [h.lh, hl.n] at hroom
    by_cases hb : b ∈ ks
    · obtain ⟨hlt, hblock⟩ := findBlock_of_mem hl hb
      rw [hl.n, if_neg (by omega), wp_pure]
      refine hmem hb _ (h.setHead (congrArg _ ?_))
      rw [Function.update_eq_self_iff.mpr hblock.symm, ← hl.n]
    · rw [findBlock_of_not hl hb, hl.n, if_pos rfl, wp_bind]
      refine wp_bpin (h.setHead rfl) hr fun s' hs' => ?_
      rw [wp_modify]
      refine hnew hb (by omega) _ _ (hl.push b) (hs'.setHead ?_)
      rw [hs'.lh, hl.n]

/-- **In a transaction** that started on the disk `d₀` and has made it `new`, and has logged
`ks`. -/
structure InTrans (start : BlockNo) (size : Nat) (d₀ : BlockNo → Block) (ks : List BlockNo)
    (new : BlockNo → Block) (lh : LogHeader) (s : LogState) : Prop where
  pinned : Pinned start size d₀ ks new [] lh 1 false s
  lists : Lists lh ks
  nodup : ks.Nodup
  home : ∀ k ∈ ks, (redoLog start).Home k
  length : ks.length ≤ logBlocks
  same : ∀ k, k ∉ ks → new k = d₀ k

/-- **A step of a transaction**: one more block is changed. -/
theorem wp_update (h : InTrans start size d₀ ks new lh s) (hb : (redoLog start).Home b)
    (hE : ∀ s : LogState, s.writes = [] → E s) :
    wp (update (b, v)) (fun _ s' => ∃ ks' lh', InTrans start size d₀ ks' (Function.update new b v)
      lh' s') E s := by
  obtain ⟨view, hat, hview⟩ := h.pinned
  have hshow : ∀ k ∈ ks, Function.update view b v k = Function.update new b v k := by
    intro k hk
    by_cases hkb : k = b
    · rw [hkb, Function.update_self, Function.update_self]
    · rw [Function.update_of_ne hkb, Function.update_of_ne hkb]
      exact hview k hk
  have hsame : ∀ k, k ∉ ks → k ≠ b → Function.update new b v k = d₀ k := by
    intro k hk hkb
    rw [Function.update_of_ne hkb]
    exact h.same k hk
  unfold update
  simp only [wp_bind]
  refine wp_bread hat (Or.inl (hE s hat.writes)) fun s₁ h₁ => ?_
  refine wp_setData h₁ (by simp) fun s₂ h₂ => ?_
  refine wp_logWrite h₂ (by simp) h.lists hE (fun hmem s₃ h₃ => ?_) fun hnew hlt lh' s₃ hl' h₃ => ?_
  · -- the block has been logged before
    refine wp_brelse h₃ (by simp) (fun hone => ?_) fun s₄ h₄ => ?_
    · simp [pins_of_mem hmem] at hone
    · simp only [Function.update_self, Nat.add_sub_cancel, Function.update_idem,
        Function.update_eq_self] at h₄
      refine ⟨ks, lh, ⟨_, h₄, hshow⟩, h.lists, h.nodup, h.home, h.length, fun k hk => hsame k hk ?_⟩
      rintro rfl
      exact hk hmem
  · refine wp_brelse h₃ (by simp) (fun hone => ?_) fun s₄ h₄ => ?_
    · simp at hone
    · have hrefs : Function.update (pins ks) b 1 = pins (ks ++ [b]) := by
        funext k
        by_cases hkb : k = b
        · rw [hkb, Function.update_self, pins_of_mem (by simp)]
        · rw [Function.update_of_ne hkb]
          simp [pins, hkb]
      simp only [Function.update_self, Nat.add_sub_cancel, Function.update_idem, pins_of_not hnew,
        Nat.zero_add] at h₄
      rw [hrefs] at h₄
      refine ⟨ks ++ [b], lh', ⟨_, h₄, fun k hk => ?_⟩, hl', ?_, fun k hk => ?_, ?_, fun k hk => ?_⟩
      · rcases List.mem_append.mp hk with hk | hk
        · exact hshow k hk
        · rw [List.mem_singleton.mp hk, Function.update_self, Function.update_self]
      · exact List.nodup_append.mpr ⟨h.nodup, List.nodup_singleton b, by
          rintro k hk _ hk' rfl
          exact hnew (List.mem_singleton.mp hk' ▸ hk)⟩
      · rcases List.mem_append.mp hk with hk | hk
        · exact h.home k hk
        · rw [List.mem_singleton.mp hk]
          exact hb
      · rw [List.length_append, List.length_singleton]
        omega
      · rw [List.mem_append, not_or, List.mem_singleton] at hk
        exact hsame k hk.1 hk.2

/-- **All updates of a transaction**. -/
theorem wp_updates (us : List (BlockNo × Block)) (hus : ∀ w ∈ us, (redoLog start).Home w.1)
    (hE : ∀ s : LogState, s.writes = [] → E s) :
    ∀ {ks new lh s}, InTrans start size d₀ ks new lh s →
      wp (updates us) (fun _ s' => ∃ ks' lh', InTrans start size d₀ ks' (applyWrites new us) lh' s')
      E s := by
  induction us with
  | nil =>
    intro ks new lh s h
    exact ⟨ks, lh, h⟩
  | cons w us ih =>
    intro ks new lh s h
    rw [updates, wp_bind]
    refine wp_mono (wp_update h (hus w List.mem_cons_self) hE) (fun _ s' hs' => ?_) fun _ h => h
    obtain ⟨ks', lh', h'⟩ := hs'
    exact ih (fun w' hw' => hus w' (List.mem_cons_of_mem w hw')) h'

/-- **No transaction runs**: the log is empty, in memory and on the disk, and no buffer is in
use. -/
structure Idle (start : BlockNo) (s : LogState) : Prop where
  ok : s.bcache.Ok s.disk
  size : s.bcache.length = nbuf
  refs : ∀ k, s.bcache.refs k = 0
  place : s.start = start
  writes : s.writes = []
  n : s.lh.n = 0
  outstanding : s.outstanding = 0
  committing : s.committing = false
  entries : entries (s.disk start) = []

theorem Idle.inTrans (h : Idle start s) :
    InTrans start nbuf s.disk [] s.disk s.lh { s with outstanding := s.outstanding + 1 } := by
  have hrefs : s.bcache.refs = pins [] := funext fun k =>
    (h.refs k).trans (pins_of_not List.not_mem_nil).symm
  refine ⟨⟨_, ⟨h.ok, h.place, h.size, ?_, rfl, fun k hk => ?_, hrefs, h.writes, rfl, ?_,
    h.committing⟩,
    fun k hk => absurd hk List.not_mem_nil⟩, ⟨h.n, fun i hi => absurd hi (Nat.not_lt_zero i)⟩,
    List.nodup_nil, fun k hk => absurd hk List.not_mem_nil, Nat.zero_le _, fun _ _ => rfl⟩
  · rfl
  · rw [pins_of_not List.not_mem_nil] at hk
    exact absurd hk (Nat.lt_irrefl 0)
  · show s.outstanding + 1 = 1
    rw [h.outstanding]
    rfl

/-- **The writes of a transaction**: a crash after some of them, also in a panic, can be recovered;
and when it has returned, the changes are on the disk. -/
theorem wp_transaction {us : List (BlockNo × Block)} (h : Idle start s)
    (hus : ∀ w ∈ us, (redoLog start).Home w.1) :
    wp (transaction us) (fun _ s' => Safe start s.disk (applyWrites s.disk us) s'.writes ∧
        (redoLog start).Empty (applyWrites s.disk us) (applyWrites s.disk s'.writes))
      (fun s' => Safe start s.disk (applyWrites s.disk us) s'.writes) s := by
  have hnone : ∀ s' : LogState, s'.writes = [] →
    Safe start s.disk (applyWrites s.disk us) s'.writes := by
    intro s' hs' l hl
    rw [hs'] at hl
    rw [List.prefix_nil.mp hl]
    exact Or.inl ⟨h.entries, fun _ _ => rfl⟩
  unfold transaction beginOp
  simp only [wp_bind, wp_get]
  rw [h.committing, h.n, h.outstanding, if_neg Bool.false_ne_true, if_neg (by decide), wp_bind,
    wp_modify, wp_pure, if_pos rfl, wp_bind]
  refine wp_mono (wp_updates us hus hnone h.inTrans) (fun _ s₁ hs₁ => ?_) fun _ h => h
  obtain ⟨ks, lh, h₁⟩ := hs₁
  obtain ⟨view, hat, hview⟩ := h₁.pinned
  unfold endOp endOpStart
  simp only [wp_bind, wp_get, wp_modify]
  rw [hat.committing, hat.outstanding, if_neg Bool.false_ne_true, if_pos (by decide), wp_bind,
    wp_modify, wp_pure, if_pos rfl, wp_bind]
  have hcommit : Pinned start nbuf s.disk ks (applyWrites s.disk us) [] lh 0 true
      { s₁ with outstanding := 0, committing := true } :=
    ⟨view, { hat with outstanding := rfl, committing := rfl }, hview⟩
  refine wp_mono (wp_commit hcommit h₁.lists h.entries h₁.home h₁.nodup h₁.length h₁.same)
    (fun _ s₂ hs₂ => ?_) fun _ h => h
  obtain ⟨hsafe, hdisk, hempty⟩ := hs₂
  rw [hdisk] at hempty
  exact ⟨hsafe, hempty⟩

/-! ## Recovery -/

/-- **The machine has booted** from the disk `d`: no buffer is in use. -/
structure Booted (d : BlockNo → Block) (s : LogState) : Prop where
  disk : s.disk = d
  ok : s.bcache.Ok s.disk
  size : s.bcache.length = nbuf
  refs : ∀ k, s.bcache.refs k = 0
  writes : s.writes = []

theorem Booted.pinned {d : BlockNo → Block} (h : Booted d s) (start : BlockNo) :
    Pinned start nbuf d [] d [] s.lh s.outstanding s.committing { s with start := start } := by
  have hrefs : s.bcache.refs = pins [] := funext fun k =>
    (h.refs k).trans (pins_of_not List.not_mem_nil).symm
  refine ⟨_, ⟨h.ok, rfl, h.size, h.disk, rfl, fun k hk => ?_, hrefs, h.writes, rfl, rfl, rfl⟩,
    fun k hk => absurd hk List.not_mem_nil⟩
  rw [pins_of_not List.not_mem_nil] at hk
  exact absurd hk (Nat.lt_irrefl 0)

/-- The buffer cache after `binit`. -/
def binit : BufferCache BlockNo Block :=
  List.replicate nbuf { key := none, valid := false, refcnt := 0, data := fun _ => 0 }

theorem buffer_binit (k : BlockNo) : binit.buffer k = none := by
  unfold binit BufferCache.buffer
  rw [List.find?_eq_none]
  intro b hb
  rw [List.eq_of_mem_replicate hb]
  simp

/-- The cache after `binit` is fit for every disk. -/
theorem binit_ok (d : BlockNo → Block) : binit.Ok d where
  distinct := by simp [binit, BufferCache.keys]
  unused b hb _ := by rw [List.eq_of_mem_replicate hb]
  clean k b hb := by
    rw [buffer_binit] at hb
    cases hb

theorem refs_binit (k : BlockNo) : binit.refs k = 0 := by
  unfold BufferCache.refs
  rw [buffer_binit]

/-- The state in which the machine boots. -/
def bootState (d : BlockNo → Block) : LogState := { disk := d, bcache := binit, start := 0 }

theorem booted_bootState (d : BlockNo → Block) : Booted d (bootState d) :=
  ⟨rfl, binit_ok d, List.length_replicate, refs_binit, rfl⟩

/-- **`read_head`** reads the header from the disk. -/
theorem wp_readHead (h : Pinned start size d₀ [] new ws lh o cm s) (hsize : 2 ≤ size) :
    wp readHead (fun _ => Pinned start size d₀ [] new ws (decodeHead (applyWrites d₀ ws start) lh)
      o cm) E s := by
  obtain ⟨view, hat, -⟩ := h
  have hz : ∀ k, pins [] k = 0 := fun k => pins_of_not List.not_mem_nil
  have hdisk := hat.view_of_unreferenced (b := start) (hz start)
  have hroom : Room size [] ws E := Or.inr hsize
  unfold readHead
  simp only [wp_bind, wp_get, hat.start]
  refine wp_bread hat (hroom.first hat.writes) fun s₁ h₁ => ?_
  rw [wp_modify, h₁.lh, hdisk]
  refine wp_brelse (h₁.setHead rfl) (by simp) (fun _ => hdisk) fun s₂ h₂ => ?_
  simp only [Function.update_self, Nat.add_sub_cancel, Function.update_idem,
    Function.update_eq_self] at h₂
  exact ⟨_, h₂, fun k hk => absurd hk List.not_mem_nil⟩

/-- The first `j` writes of a recovery of `d₀`. -/
def recovered (start : BlockNo) (d₀ : BlockNo → Block) (j : Nat) : List (BlockNo × Block) :=
  ((entries (d₀ start)).zipIdx.map fun p => (p.1, d₀ (slot start p.2))).take j

/-- **`install_trans`** in a recovery writes each block to its place, and does not panic. -/
theorem wp_installTrans_recovering (h : Pinned start size d₀ [] new [] lh o cm s) (hsize : 2 ≤ size)
    (hn : lh.n.toNat = (entries (d₀ start)).length)
    (hl : ∀ i, i < (entries (d₀ start)).length → (entries (d₀ start))[i]? = some (lh.block i))
    (hhome : ∀ k ∈ entries (d₀ start), (redoLog start).Home k)
    (hlen : (entries (d₀ start)).length ≤ logBlocks) :
    wp (installTrans true) (fun _ => Pinned start size d₀ [] new
      (recovered start d₀ (entries (d₀ start)).length) lh o cm) E s := by
  obtain ⟨view, hat, hview⟩ := h
  unfold installTrans
  rw [wp_bind, wp_get, hat.lh]
  dsimp only
  rw [hn]
  refine wp_mono (wp_loop (I := fun j s => Pinned start size d₀ [] new (recovered start d₀ j)
    lh o cm s)
    (entries (d₀ start)).length (fun j s _ hj hs => ?_) ⟨view, hat, hview⟩) (fun _ s' hs' => ?_)
    fun _ h => h
  · have hblock := hl j (by omega)
    have hmem : lh.block j ∈ entries (d₀ start) := List.mem_of_getElem? hblock
    refine wp_mono (wp_recover_body hs hsize (hhome _ hmem) (by omega)) (fun _ s' hs' => ?_)
      fun _ h => h
    -- the blocks written so far are not in the log
    have hsame : applyWrites d₀ (recovered start d₀ j) (slot start j) = d₀ (slot start j) := by
      apply applyWrites_of_ne
      intro w hw
      obtain ⟨p, hp, rfl⟩ := List.mem_map.mp (List.mem_of_mem_take hw)
      exact (hhome _ (List.fst_mem_of_mem_zipIdx hp)).2 j (show j < logBlocks by omega)
    rw [hsame] at hs'
    rw [recovered, take_succ_of_getElem? (getElem?_zipIdx_map hblock)]
    exact hs'
  · rw [Nat.zero_add] at hs'
    exact hs'

/-- **A recovery** makes the writes of a redo log, and does not panic. -/
theorem wp_initlog {d : BlockNo → Block} (h : Booted d s)
    (hhome : ∀ k ∈ entries (d start), (redoLog start).Home k)
    (hlen : (entries (d start)).length ≤ logBlocks) :
    wp (initlog start) (fun _ s' => ∃ h₀, entries h₀ = [] ∧
      s'.writes = (redoLog start).recoveryWrites d h₀ ∧
      s'.disk = applyWrites d s'.writes) (fun _ => False) s := by
  unfold initlog recoverFromLog
  simp only [wp_bind, wp_modify]
  have hsize : 2 ≤ nbuf := by decide
  refine wp_mono (wp_readHead (h.pinned start) hsize) (fun _ s₁ h₁ => ?_) fun _ h => h
  refine wp_mono (wp_installTrans_recovering h₁ hsize (decodeHead_n _ _) (decodeHead_lists _ _)
    hhome hlen) (fun _ s₂ h₂ => ?_) fun _ h => h
  obtain ⟨view, hat, hview⟩ := h₂
  unfold clearHead
  rw [wp_modify, hat.lh]
  refine wp_mono (wp_writeHead (Pinned.setHead ⟨view, hat, hview⟩ rfl) (Or.inr hsize)
    List.not_mem_nil) (fun _ s₃ h₃ => ?_) fun _ h => h
  obtain ⟨_, hat₃, -⟩ := h₃
  have hws := hat₃.writes
  rw [recovered, List.take_of_length_le (by simp)] at hws
  refine ⟨_, ?_, hws, by rw [hat₃.disk, hat₃.writes]⟩
  exact entries_encodeHead (Lists.clear _) (Nat.zero_le _) _

/-- **Recovery is interrupted**, any number of times: each one starts from the disk that the crash
in the one before left. -/
inductive Interrupted (start : BlockNo) : (BlockNo → Block) → (BlockNo → Block) → Prop
  | refl (d : BlockNo → Block) : Interrupted start d d
  | crash {d d' : BlockNo → Block} {s : LogState} (k : Nat) : Interrupted start d d' → Booted d' s →
      Interrupted start d (applyWrites d' (((initlog start).exec s).2.writes.take k))

variable {old d d' : BlockNo → Block}

/-- What a recovery needs to know of the disk. -/
theorem Recoverable.listed (h : Recoverable start old new d) :
    (∀ k ∈ entries (d start), (redoLog start).Home k) ∧ (entries (d start)).length ≤ logBlocks := by
  have hnil : entries (d start) = [] →
      (∀ k ∈ entries (d start), (redoLog start).Home k) ∧
      (entries (d start)).length ≤ logBlocks := by
    intro hnil
    rw [hnil]
    exact ⟨fun k hk => absurd hk List.not_mem_nil, Nat.zero_le _⟩
  rcases h with h | h | ⟨ks, hlen, hhome, h⟩
  · exact hnil h.entries
  · exact hnil h.entries
  · have hks : entries (d start) = ks := h.entries
    rw [hks]
    exact ⟨hhome, hlen⟩

/-- **A crash in a recovery** leaves a disk that can be recovered, to the same. -/
theorem Recoverable.crash {h₀ : Block} (h : Recoverable start old new d) (h₀' : Log.entries h₀ = [])
    (hws : ws <+: (redoLog start).recoveryWrites d h₀) :
    Recoverable start old new (applyWrites d ws) := by
  rcases h with h | h | ⟨ks, hlen, hhome, h⟩
  · exact Or.inl (h.crash_recovery h₀' hws)
  · exact Or.inr (Or.inl (h.crash_recovery h₀' hws))
  · rcases h.crash_recovery hlen hhome h₀' hws with h | h
    · exact Or.inr (Or.inr ⟨ks, hlen, hhome, h⟩)
    · exact Or.inr (Or.inl h)

/-- **A whole recovery** leaves an empty log. -/
theorem Recoverable.recovered {h₀ : Block} (h : Recoverable start old new d)
    (h₀' : Log.entries h₀ = []) :
    (redoLog start).Empty old (applyWrites d ((redoLog start).recoveryWrites d h₀)) ∨
    (redoLog start).Empty new (applyWrites d ((redoLog start).recoveryWrites d h₀)) := by
  rcases h with h | h | ⟨ks, hlen, hhome, h⟩
  · exact Or.inl (h.recovered h₀')
  · exact Or.inr (h.recovered h₀')
  · exact Or.inr (h.recovered h₀')

/-- Interrupted recoveries keep the disk recoverable. -/
theorem Recoverable.interrupted (h : Recoverable start old new d) (hi : Interrupted start d d') :
    Recoverable start old new d' := by
  induction hi with
  | refl => exact h
  | crash k _ hb ih =>
    obtain ⟨hhome, hlen⟩ := ih.listed
    obtain ⟨_, s', hexec, h₀, h₀', hws, -⟩ := returns_of_wp (wp_initlog hb hhome hlen)
    rw [hexec, hws]
    exact ih.crash h₀' (List.take_prefix _ _)

/-- **Transactions are atomic across crashes**. For every transaction on blocks outside the log and
a crash after some of its writes, after any number of recoveries that are interrupted, a recovery
returns with an empty log, and the blocks outside it are as they were before, all of them, or as the
transaction makes them, all of them; and they are the latter when the transaction had returned. -/
theorem transaction_atomic {us : List (BlockNo × Block)} {s' : LogState} (hs : Idle start s)
    (hus : ∀ w ∈ us, (redoLog start).Home w.1) (k : Nat)
    (hi : Interrupted start (applyWrites s.disk (((transaction us).exec s).2.writes.take k)) d)
    (hb : Booted d s') :
    ∃ s'', (initlog start).exec s' = (.ok (), s'') ∧ Log.entries (s''.disk start) = [] ∧
      ((∀ b, (redoLog start).Home b → s''.disk b = s.disk b) ∨
        ∀ b, (redoLog start).Home b → s''.disk b = applyWrites s.disk us b) ∧
      (((transaction us).exec s).1.isOk → ((transaction us).exec s).2.writes.length ≤ k →
        ∀ b, (redoLog start).Home b → s''.disk b = applyWrites s.disk us b) := by
  have htrans := wp_transaction hs hus
  unfold wp at htrans
  -- the end of the transaction, and what the crash leaves
  generalize hend : (transaction us).exec s = r at htrans hi
  obtain ⟨r, t⟩ := r
  have hsafe : Safe start s.disk (applyWrites s.disk us) t.writes := by
    cases r with
    | ok _ => exact htrans.1
    | error _ => exact htrans
  have hrec := (hsafe _ (List.take_prefix k t.writes)).interrupted hi
  obtain ⟨hhome, hlen⟩ := hrec.listed
  obtain ⟨_, s'', hexec, h₀, h₀', hws, hdisk⟩ := returns_of_wp (wp_initlog hb hhome hlen)
  rw [hws] at hdisk
  refine ⟨s'', hexec, ?_, ?_, fun hok hk => ?_⟩
  · rw [hdisk]
    rcases hrec.recovered h₀' with h | h
    · exact h.entries
    · exact h.entries
  · rw [hdisk]
    rcases hrec.recovered h₀' with h | h
    · exact Or.inl h.home
    · exact Or.inr h.home
  · cases r with
    | error _ => cases hok
    | ok _ =>
      -- all writes were made, so there are only the new contents to recover
      have hnew : Recoverable start (applyWrites s.disk us) (applyWrites s.disk us)
          (applyWrites s.disk (t.writes.take k)) := by
        rw [List.take_of_length_le hk]
        exact Or.inl htrans.2
      rw [hdisk]
      rcases (hnew.interrupted hi).recovered h₀' with h | h
      · exact h.home
      · exact h.home

/-- One block of sevens is written, and the machine loses power when the operation has returned. -/
theorem transaction_atomic_sevens :
    ∃ s, (initlog 2).exec (bootState (applyWrites (fun _ _ => 0)
        (((transaction [(50, fun _ => 7)]).exec
          { bootState (fun _ _ => 0) with start := 2 }).2.writes.take 4))) = (.ok (), s) ∧
      entries (s.disk 2) = [] ∧ s.disk 50 = fun _ => 7 := by
  have hhome : (redoLog 2).Home 50 := ⟨by decide, by decide⟩
  have hidle : Idle 2 { bootState (fun _ _ => 0) with start := 2 } :=
    ⟨binit_ok _, List.length_replicate, refs_binit, rfl, rfl, rfl, rfl, rfl, rfl⟩
  have hus : ∀ w ∈ [((50, fun _ => 7) : BlockNo × Block)], (redoLog 2).Home w.1 := by
    intro w hw
    rw [List.mem_singleton.mp hw]
    exact hhome
  obtain ⟨s, hexec, hempty, -, hnew⟩ :=
    transaction_atomic hidle hus 4 (Interrupted.refl _) (booted_bootState _)
  refine ⟨s, hexec, hempty, ?_⟩
  rw [hnew (by decide +kernel) (by decide +kernel) 50 hhome]
  rfl

end Xv6.Log
