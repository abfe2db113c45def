import Mathlib.Data.List.Nodup
import Mathlib.Logic.Function.Basic

/-!
# Buffer caches

A cache of a fixed number of buffers in front of a store, least recently used last. A buffer that
is in use is counted by its references; one without references may be recycled for another cell,
and what it held is lost. Such a cache shows at each cell a value: that of the buffer, or that of
the store. As long as a buffer without references agrees with the store, recycling it changes
nothing of what is shown.

## Main definitions

* `Buffer`, `BufferCache`: buffers, most recently used first
* `get`, `fill`, `put`, `setData`, `reference`: the operations on the buffer of a cell
* `BufferCache.view`: the value that the cache shows at a cell
* `BufferCache.refs`: the references to a cell
* `BufferCache.Ok`: the cells are distinct and buffers without references agree with the store

## Main results

* `Ok.load`, `Ok.fill`, `Ok.put`, `Ok.setData`, `Ok.reference`, `Ok.store`: what each operation does
  to the values shown and to the references
* `refs_get`, `refs_put`, `refs_reference`, `refs_dereference`: the references,
  whatever the values are
-/

variable {K V : Type} [DecidableEq K]

/-- A buffer, for the cell `key` when it has one. -/
structure Buffer (K V : Type) where
  key : Option K
  valid : Bool
  refcnt : Nat
  data : V

/-- The buffers, most recently used first. -/
abbrev BufferCache (K V : Type) := List (Buffer K V)

namespace BufferCache

variable {c c' : BufferCache K V} {d : K → V} {k k' : K} {v : V} {b b' : Buffer K V}

/-! ## Operations -/

/-- Change the buffer of a cell. -/
def onKey (c : BufferCache K V) (k : K) (f : Buffer K V → Buffer K V) : BufferCache K V :=
  c.map fun b => if b.key = some k then f b else b

/-- Take the last buffer without references for the cell. -/
def recycle (k : K) : BufferCache K V → Option (BufferCache K V)
  | [] => none
  | b :: rest =>
    match recycle k rest with
    | some rest' => some (b :: rest')
    | none => if b.refcnt = 0 then
        some ({ b with key := some k, valid := false, refcnt := 1 } :: rest) else none

/-- Add a reference. -/
def reference (c : BufferCache K V) (k : K) : BufferCache K V :=
  c.onKey k fun b => { b with refcnt := b.refcnt + 1 }

/-- The buffer of a cell gets a reference; when there is none, another buffer is recycled. -/
def get (c : BufferCache K V) (k : K) : Option (BufferCache K V) :=
  if c.any (fun b => b.key = some k) then some (c.reference k) else recycle k c

/-- The buffer of a cell is filled from the store, unless it is valid. -/
def fill (c : BufferCache K V) (k : K) (v : V) : BufferCache K V :=
  c.onKey k fun b => if b.valid then b else { b with data := v, valid := true }

/-- The buffer of a cell gets a value. -/
def setData (c : BufferCache K V) (k : K) (v : V) : BufferCache K V :=
  c.onKey k fun b => { b with data := v }

/-- Drop a reference. -/
def dereference (c : BufferCache K V) (k : K) : BufferCache K V :=
  c.onKey k fun b => { b with refcnt := b.refcnt - 1 }

/-- Drop a reference; the buffer is the most recently used one when it was the last. -/
def put (c : BufferCache K V) (k : K) : BufferCache K V :=
  let c := c.dereference k
  c.filter (fun b => b.key = some k && b.refcnt = 0) ++
    c.filter (fun b => !(b.key = some k && b.refcnt = 0))

/-! ## What a cache shows -/

/-- The buffer of a cell. -/
def buffer (c : BufferCache K V) (k : K) : Option (Buffer K V) := c.find? fun b => b.key = some k

/-- The cells that have a buffer. -/
def keys (c : BufferCache K V) : List K := c.filterMap Buffer.key

/-- The value at a cell: that of its buffer when it is valid, else that of the store. -/
def view (c : BufferCache K V) (d : K → V) (k : K) : V :=
  match c.buffer k with
  | some b => if b.valid then b.data else d k
  | none => d k

/-- The references to a cell. -/
def refs (c : BufferCache K V) (k : K) : Nat :=
  match c.buffer k with
  | some b => b.refcnt
  | none => 0

/-- **The invariant of the cache**: a cell has one buffer at most, and a buffer without references
agrees with the store. -/
structure Ok (c : BufferCache K V) (d : K → V) : Prop where
  distinct : c.keys.Nodup
  unused : ∀ b ∈ c, b.key = none → b.refcnt = 0
  clean : ∀ k b, c.buffer k = some b → b.valid = true → b.refcnt = 0 → b.data = d k

/-- The cell has a valid buffer. -/
def Loaded (c : BufferCache K V) (k : K) : Prop := ∃ b, c.buffer k = some b ∧ b.valid = true

omit [DecidableEq K] in
theorem mem_keys : k ∈ c.keys ↔ ∃ b ∈ c, b.key = some k := List.mem_filterMap

theorem buffer_key (h : c.buffer k = some b) : b.key = some k := by
  simpa using List.find?_some h

theorem buffer_eq_none : c.buffer k = none ↔ k ∉ c.keys := by
  rw [buffer, List.find?_eq_none, mem_keys]
  simp

theorem buffer_mem (h : c.buffer k = some b) : b ∈ c := List.mem_of_find?_eq_some h

theorem buffer_of_mem (h : c.keys.Nodup) (hb : b ∈ c) (hk : b.key = some k) :
    c.buffer k = some b := by
  induction c with
  | nil => cases hb
  | cons a c ih =>
    unfold buffer at ih ⊢
    rcases List.mem_cons.mp hb with rfl | hmem
    · rw [List.find?_cons_of_pos (by simpa using hk)]
    · cases ha : a.key with
      | none =>
        rw [keys, List.filterMap_cons_none ha] at h
        rw [List.find?_cons_of_neg (by rw [ha]; simp)]
        exact ih h hmem
      | some k' =>
        rw [keys, List.filterMap_cons_some ha, List.nodup_cons] at h
        have hne : a.key ≠ some k := by
          rw [ha]
          rintro heq
          refine h.1 ?_
          rw [Option.some.inj heq]
          exact mem_keys.mpr ⟨b, hmem, hk⟩
        rw [List.find?_cons_of_neg (by simpa using hne)]
        exact ih h.2 hmem

/-! ## Changing one buffer -/

theorem keys_onKey {f : Buffer K V → Buffer K V} (hf : ∀ b, (f b).key = b.key) (c : BufferCache K V)
    (k : K) : (c.onKey k f).keys = c.keys := by
  unfold keys onKey
  rw [List.filterMap_map]
  apply List.filterMap_congr
  intro b _
  rw [Function.comp_apply]
  split
  · exact hf b
  · rfl

theorem buffer_onKey {f : Buffer K V → Buffer K V} (hf : ∀ b, (f b).key = b.key)
    (c : BufferCache K V)
    (k k' : K) : (c.onKey k f).buffer k' = if k' = k then (c.buffer k).map f else c.buffer k' := by
  unfold buffer onKey
  rw [List.find?_map]
  have hp : ((fun b : Buffer K V => decide (b.key = some k')) ∘ fun b => if b.key = some k then f b
    else b) =
      fun b => decide (b.key = some k') := by
    funext b
    rw [Function.comp_apply]
    split
    · rw [hf]
    · rfl
  rw [hp]
  by_cases hk : k' = k
  · rw [if_pos hk, hk]
    cases hb : c.find? (fun b => decide (b.key = some k)) with
    | none => rfl
    | some b =>
      have : b.key = some k := by simpa using List.find?_some hb
      rw [Option.map_some, Option.map_some, if_pos this]
  · rw [if_neg hk]
    cases hb : c.find? (fun b => decide (b.key = some k')) with
    | none => rfl
    | some b =>
      have hb' : b.key = some k' := by simpa using List.find?_some hb
      rw [Option.map_some, if_neg]
      rw [hb']
      exact fun heq => hk (Option.some.inj heq)

theorem view_of_buffer (h : c.buffer k = some b) : c.view d k = if b.valid then b.data
    else d k := by
  unfold view
  rw [h]

theorem refs_of_buffer (h : c.buffer k = some b) : c.refs k = b.refcnt := by
  unfold refs
  rw [h]

/-- A cell that is referenced has a buffer. -/
theorem buffer_of_refs (h : 0 < c.refs k) : ∃ b, c.buffer k = some b ∧ 0 < b.refcnt := by
  cases hb : c.buffer k with
  | some b => exact ⟨b, rfl, by rwa [refs_of_buffer hb] at h⟩
  | none =>
    unfold refs at h
    rw [hb] at h
    exact absurd h (Nat.lt_irrefl 0)

/-- **What an operation on the cell `k` does**: the cell shows `v` with `r` references, the other
cells show what they showed, and no cell that is referenced is lost. -/
structure Moves (c c' : BufferCache K V) (d : K → V) (k : K) (v : V) (r : Nat) : Prop where
  ok : c'.Ok d
  view : c'.view d = Function.update (c.view d) k v
  refs : c'.refs = Function.update c.refs k r
  loaded : ∀ k', 0 < c.refs k' → c.Loaded k' → c'.Loaded k'
  length : c'.length = c.length

/-- An operation on the buffer of one cell. -/
theorem Ok.moves (h : c.Ok d) (hkeys : c'.keys.Nodup)
    (hunused : ∀ b ∈ c', b.key = none → b.refcnt = 0) (hlen : c'.length = c.length)
    (hself : c'.buffer k = some b') (hother : ∀ k', k' ≠ k → c'.buffer k' = c.buffer k')
    (hclean : b'.valid = true → b'.refcnt = 0 → b'.data = d k)
    (hvalid : ∀ b, c.buffer k = some b → b.valid = true → b'.valid = true) :
    Moves c c' d k (if b'.valid then b'.data else d k) b'.refcnt := by
  refine ⟨⟨hkeys, hunused, fun k' b hb hv hr => ?_⟩, ?_, ?_, fun k' _ ⟨b, hb, hv⟩ => ?_, hlen⟩
  · by_cases hk : k' = k
    · rw [hk, hself] at hb
      obtain rfl := Option.some.inj hb
      rw [hk]
      exact hclean hv hr
    · rw [hother k' hk] at hb
      exact h.clean k' b hb hv hr
  · funext k'
    by_cases hk : k' = k
    · rw [hk, Function.update_self, view_of_buffer hself]
    · rw [Function.update_of_ne hk, BufferCache.view, BufferCache.view, hother k' hk]
  · funext k'
    by_cases hk : k' = k
    · rw [hk, Function.update_self, refs_of_buffer hself]
    · rw [Function.update_of_ne hk, BufferCache.refs, BufferCache.refs, hother k' hk]
  · by_cases hk : k' = k
    · rw [hk] at hb ⊢
      exact ⟨b', hself, hvalid b hb hv⟩
    · exact ⟨b, by rw [hother k' hk, hb], hv⟩

theorem Ok.onKey {f : Buffer K V → Buffer K V} (h : c.Ok d) (hf : ∀ b, (f b).key = b.key)
    (hb : c.buffer k = some b) (hclean : (f b).valid = true → (f b).refcnt = 0 → (f b).data = d k)
    (hvalid : b.valid = true → (f b).valid = true) :
    Moves c (c.onKey k f) d k (if (f b).valid then (f b).data else d k) (f b).refcnt := by
  refine h.moves ?_ (fun b₁ hb₁ hnone => ?_) (List.length_map ..)
    (by rw [buffer_onKey hf, if_pos rfl, hb]; rfl)
    (fun k' hk' => by rw [buffer_onKey hf, if_neg hk']) hclean fun b₁ hb₁ hv => ?_
  · rw [keys_onKey hf]
    exact h.distinct
  · obtain ⟨b₂, hb₂, rfl⟩ := List.mem_map.mp hb₁
    split at hnone
    · next hkey =>
      rw [hf, hkey] at hnone
      cases hnone
    · next hkey =>
      rw [if_neg hkey]
      exact h.unused b₂ hb₂ hnone
  · obtain rfl := Option.some.inj (hb.symm.trans hb₁)
    exact hvalid hv

/-- **A value for a cell** that is loaded and referenced. -/
theorem Ok.setData (h : c.Ok d) (hl : c.Loaded k) (href : 0 < c.refs k) (v : V) :
    Moves c (c.setData k v) d k v (c.refs k) := by
  obtain ⟨b, hb, hv⟩ := hl
  rw [refs_of_buffer hb] at href ⊢
  have hm := h.onKey (f := fun b => { b with data := v }) (fun _ => rfl) hb
    (fun _ hr => absurd hr (Nat.ne_of_gt href)) fun h => h
  rwa [if_pos (show ({ b with data := v } : Buffer K V).valid = true from hv)] at hm

/-- **One more reference** to a cell with a buffer. -/
theorem Ok.reference (h : c.Ok d) (hb : c.buffer k = some b) :
    Moves c (c.reference k) d k (c.view d k) (c.refs k + 1) := by
  rw [refs_of_buffer hb, view_of_buffer hb]
  exact h.onKey (f := fun b => { b with refcnt := b.refcnt + 1 }) (fun _ => rfl) hb
    (fun _ hr => absurd hr (Nat.succ_ne_zero _)) fun h => h

/-- **One reference less** to a cell, which agrees with the store when it was the last. -/
theorem Ok.dereference (h : c.Ok d) (hl : c.Loaded k) (hlast : c.refs k = 1 → c.view d k = d k)
    (href : 0 < c.refs k) : Moves c (c.dereference k) d k (c.view d k) (c.refs k - 1) := by
  obtain ⟨b, hb, hv⟩ := hl
  rw [refs_of_buffer hb] at hlast href ⊢
  rw [view_of_buffer hb, if_pos hv] at hlast
  rw [view_of_buffer hb]
  refine h.onKey (f := fun b => { b with refcnt := b.refcnt - 1 }) (fun _ => rfl) hb
    (fun _ hr => ?_) fun h => h
  change b.refcnt - 1 = 0 at hr
  exact hlast (by omega)

theorem keys_reference (c : BufferCache K V) (k : K) : (c.reference k).keys = c.keys :=
  keys_onKey (f := fun b => { b with refcnt := b.refcnt + 1 }) (fun _ => rfl) c k

theorem keys_dereference (c : BufferCache K V) (k : K) : (c.dereference k).keys = c.keys :=
  keys_onKey (f := fun b => { b with refcnt := b.refcnt - 1 }) (fun _ => rfl) c k

theorem keys_setData (c : BufferCache K V) (k : K) (v : V) : (c.setData k v).keys = c.keys :=
  keys_onKey (f := fun b => { b with data := v }) (fun _ => rfl) c k

theorem keys_fill (c : BufferCache K V) (k : K) (v : V) : (c.fill k v).keys = c.keys :=
  keys_onKey (f := fun b => if b.valid then b else { b with data := v, valid := true })
    (fun b => by split <;> rfl) c k

/-! ## Moving a buffer to the front -/

theorem put_perm (c : BufferCache K V) (k : K) : (c.put k).Perm (c.dereference k) :=
  List.filter_append_perm _ _

theorem keys_put (h : c.keys.Nodup) (k : K) : (c.put k).keys.Nodup := by
  refine ((put_perm c k).filterMap Buffer.key).nodup_iff.mpr ?_
  show (c.dereference k).keys.Nodup
  rw [keys_dereference]
  exact h

/-- The buffers are the same ones, in another order. -/
theorem buffer_put (h : c.keys.Nodup) (k k' : K) :
    (c.put k).buffer k' = (c.dereference k).buffer k' := by
  have hkeys := keys_put h k
  cases hb : (c.dereference k).buffer k' with
  | some b => exact buffer_of_mem hkeys ((put_perm c k).mem_iff.mpr (buffer_mem hb)) (buffer_key hb)
  | none =>
    rw [buffer_eq_none] at hb ⊢
    exact fun hmem => hb ((((put_perm c k).filterMap Buffer.key).mem_iff).mp hmem)

theorem Ok.put (h : c.Ok d) (hl : c.Loaded k) (hlast : c.refs k = 1 → c.view d k = d k)
    (href : 0 < c.refs k) : Moves c (c.put k) d k (c.view d k) (c.refs k - 1) := by
  have hm := h.dereference hl hlast href
  have hbuffer := buffer_put h.distinct k
  refine ⟨⟨keys_put h.distinct k, fun b hb => hm.ok.unused b ((put_perm c k).mem_iff.mp hb),
    fun k' b hb => ?_⟩, ?_, ?_, fun k' hr hk' => ?_, (put_perm c k).length_eq.trans hm.length⟩
  · rw [hbuffer] at hb
    exact hm.ok.clean k' b hb
  · rw [← hm.view]
    funext k'
    rw [BufferCache.view, BufferCache.view, hbuffer]
  · rw [← hm.refs]
    funext k'
    rw [BufferCache.refs, BufferCache.refs, hbuffer]
  · obtain ⟨b, hb, hv⟩ := hm.loaded k' hr hk'
    exact ⟨b, by rw [hbuffer, hb], hv⟩

/-! ## Loading a cell -/

omit [DecidableEq K] in
theorem recycle_eq_some (h : recycle k c = some c') : ∃ pre b post, c = pre ++ b :: post ∧
    b.refcnt = 0 ∧ c' = pre ++ { b with key := some k, valid := false, refcnt := 1 } :: post := by
  induction c generalizing c' with
  | nil => cases h
  | cons a c ih =>
    unfold recycle at h
    split at h
    · next rest' hrest =>
      obtain ⟨pre, b, post, rfl, hb, rfl⟩ := ih hrest
      cases h
      exact ⟨a :: pre, b, post, rfl, hb, rfl⟩
    · split at h
      · next ha =>
        cases h
        exact ⟨[], a, c, rfl, ha, rfl⟩
      · cases h

omit [DecidableEq K] in
/-- There is a buffer to recycle when one has no references. -/
theorem recycle_isSome (hb : b ∈ c) (hr : b.refcnt = 0) : ∃ c', recycle k c = some c' := by
  induction c with
  | nil => cases hb
  | cons a c ih =>
    unfold recycle
    cases hrest : recycle k c with
    | some rest' => exact ⟨_, rfl⟩
    | none =>
      rcases List.mem_cons.mp hb with rfl | hmem
      · exact ⟨_, if_pos hr⟩
      · obtain ⟨c', hc'⟩ := ih hmem
        rw [hrest] at hc'
        cases hc'

omit [DecidableEq K] in
theorem keys_middle (pre post : BufferCache K V) (b : Buffer K V) :
    keys (pre ++ b :: post) = keys pre ++ (b.key.toList ++ keys post) := by
  unfold keys
  rw [List.filterMap_append]
  cases hkey : b.key with
  | none =>
    rw [List.filterMap_cons_none hkey]
    rfl
  | some k =>
    rw [List.filterMap_cons_some hkey]
    rfl

/-- What recycling does to the buffers of the other cells: the one that is taken shows the store. -/
theorem recycle_buffer (hdistinct : c.keys.Nodup) (hk : c.buffer k = none)
    (hr : recycle k c = some c') :
    c'.keys.Nodup ∧ (∃ b, c'.buffer k = some b ∧ b.valid = false ∧ b.refcnt = 1) ∧
    ∀ k', k' ≠ k → c'.buffer k' = c.buffer k' ∨
      c'.buffer k' = none ∧ ∃ b, c.buffer k' = some b ∧ b.refcnt = 0 := by
  obtain ⟨pre, b, post, hc, hb, hc'⟩ := recycle_eq_some hr
  have h := hdistinct
  rw [buffer_eq_none] at hk
  have hold := keys_middle pre post b
  have hnew := keys_middle pre post { b with key := some k, valid := false, refcnt := 1 }
  rw [← hc] at hold
  rw [← hc', Option.toList_some, List.singleton_append] at hnew
  have hkeys : c'.keys.Nodup := by
    rw [hold] at hk hdistinct
    rw [hnew, List.nodup_middle, List.nodup_cons]
    refine ⟨fun hmem => hk ?_, ?_⟩
    · rcases List.mem_append.mp hmem with hmem | hmem
      · exact List.mem_append_left _ hmem
      · exact List.mem_append_right _ (List.mem_append_right _ hmem)
    · refine hdistinct.sublist ?_
      exact (List.Sublist.refl _).append (List.sublist_append_right _ _)
  refine ⟨hkeys, ⟨{ b with key := some k, valid := false, refcnt := 1 }, buffer_of_mem hkeys ?_ rfl,
    rfl, rfl⟩, fun k' hk' => ?_⟩
  · rw [hc']
    exact List.mem_append_right _ List.mem_cons_self
  · by_cases hkey : b.key = some k'
    · have hmem : b ∈ c := by
        rw [hc]
        exact List.mem_append_right _ List.mem_cons_self
      refine Or.inr ⟨?_, b, buffer_of_mem h hmem hkey, hb⟩
      rw [buffer_eq_none, hnew]
      rw [hold, hkey, Option.toList_some, List.singleton_append, List.nodup_middle,
        List.nodup_cons] at hdistinct
      intro hmem
      rcases List.mem_append.mp hmem with hm | hm
      · exact hdistinct.1 (List.mem_append_left _ hm)
      · exact hdistinct.1 (List.mem_append_right _ ((List.mem_cons.mp hm).resolve_left hk'))
    · refine Or.inl ?_
      rw [hc, hc']
      unfold buffer
      rw [List.find?_append, List.find?_append, List.find?_cons_of_neg (by simpa using Ne.symm hk'),
        List.find?_cons_of_neg (by simpa using hkey)]

theorem recycle_frame (h : c.Ok d) (hr : BufferCache.recycle k c = some c') : c'.length = c.length ∧
    ∀ b ∈ c', b.key = none → b.refcnt = 0 := by
  obtain ⟨pre, b, post, hc, -, hc'⟩ := recycle_eq_some hr
  refine ⟨by rw [hc, hc', List.length_append, List.length_append]; rfl, fun b₁ hb₁ hnone => ?_⟩
  rw [hc'] at hb₁
  rcases List.mem_append.mp hb₁ with hm | hm
  · exact h.unused b₁ (by rw [hc]; exact List.mem_append_left _ hm) hnone
  · rcases List.mem_cons.mp hm with rfl | hm
    · cases hnone
    · exact h.unused b₁ (by rw [hc]; exact List.mem_append_right _ (List.mem_cons_of_mem _ hm))
        hnone

/-- **A buffer is recycled** for a cell that has none. -/
theorem Ok.recycle (h : c.Ok d) (hk : c.buffer k = none) (hr : BufferCache.recycle k c = some c') :
    Moves c c' d k (d k) 1 := by
  obtain ⟨hkeys, ⟨b, hself, hinvalid, hone⟩, hother⟩ := recycle_buffer h.distinct hk hr
  obtain ⟨hlen, hunused⟩ := recycle_frame h hr
  refine ⟨⟨hkeys, hunused, fun k' b₁ hb₁ hv hr₁ => ?_⟩, ?_, ?_, fun k' href hl => ?_, hlen⟩
  · by_cases hk' : k' = k
    · rw [hk', hself] at hb₁
      rw [← Option.some.inj hb₁, hinvalid] at hv
      cases hv
    · rcases hother k' hk' with hsame | ⟨hnone, -⟩
      · rw [hsame] at hb₁
        exact h.clean k' b₁ hb₁ hv hr₁
      · rw [hnone] at hb₁
        cases hb₁
  · funext k'
    by_cases hk' : k' = k
    · rw [hk', Function.update_self, view_of_buffer hself, hinvalid]
      rfl
    · rw [Function.update_of_ne hk']
      rcases hother k' hk' with hsame | ⟨hnone, b₁, hb₁, hr₁⟩
      · rw [BufferCache.view, BufferCache.view, hsame]
      · rw [view_of_buffer hb₁, BufferCache.view, hnone]
        dsimp only
        split
        · next hv => exact (h.clean k' b₁ hb₁ hv hr₁).symm
        · rfl
  · funext k'
    by_cases hk' : k' = k
    · rw [hk', Function.update_self, refs_of_buffer hself, hone]
    · rw [Function.update_of_ne hk']
      rcases hother k' hk' with hsame | ⟨hnone, b₁, hb₁, hr₁⟩
      · rw [BufferCache.refs, BufferCache.refs, hsame]
      · rw [refs_of_buffer hb₁, hr₁, BufferCache.refs, hnone]
  · obtain ⟨b₁, hb₁, hv⟩ := hl
    have hk' : k' ≠ k := by
      rintro rfl
      rw [hk] at hb₁
      cases hb₁
    rcases hother k' hk' with hsame | ⟨-, b₂, hb₂, hr₂⟩
    · exact ⟨b₁, by rw [hsame, hb₁], hv⟩
    · rw [refs_of_buffer hb₂, hr₂] at href
      exact absurd href (Nat.lt_irrefl 0)

/-- Two operations on one cell, which is referenced in between. -/
theorem Moves.trans {c'' : BufferCache K V} {v' : V} {r r' : Nat} (h : Moves c c' d k v r)
    (h' : Moves c' c'' d k v' r') (hr : 0 < r) : Moves c c'' d k v' r' where
  ok := h'.ok
  view := by rw [h'.view, h.view, Function.update_idem]
  refs := by rw [h'.refs, h.refs, Function.update_idem]
  loaded k' hk' hl := by
    refine h'.loaded k' ?_ (h.loaded k' hk' hl)
    rw [h.refs]
    by_cases hkk : k' = k
    · rw [hkk, Function.update_self]
      exact hr
    · rw [Function.update_of_ne hkk]
      exact hk'
  length := h'.length.trans h.length

/-- **The buffer of a cell is filled** from the store. -/
theorem Ok.fill (h : c.Ok d) (href : 0 < c.refs k) :
    Moves c (c.fill k (d k)) d k (c.view d k) (c.refs k) ∧ (c.fill k (d k)).Loaded k := by
  obtain ⟨b, hb, hpos⟩ := buffer_of_refs href
  have hf : ∀ b : Buffer K V, (if b.valid then b else { b with data := d k, valid := true }).key =
    b.key :=
    fun b => by split <;> rfl
  have hm := h.onKey (f := fun b => if b.valid then b
    else { b with data := d k, valid := true }) hf hb (fun _ hr => by
      split at hr <;> exact absurd hr (Nat.ne_of_gt hpos)) fun hv => by rw [hv]; exact hv
  rw [refs_of_buffer hb, view_of_buffer hb]
  cases hv : b.valid with
  | true =>
    simp only [hv, if_true] at hm
    exact ⟨hm, b, by rw [BufferCache.fill, buffer_onKey hf, if_pos rfl, hb, Option.map_some,
      if_pos hv], hv⟩
  | false =>
    simp only [hv, Bool.false_eq_true, if_false, if_true] at hm
    refine ⟨hm, { b with data := d k, valid := true }, ?_, rfl⟩
    rw [BufferCache.fill, buffer_onKey hf, if_pos rfl, hb, Option.map_some, hv]
    rfl

/-- **A cell is loaded**: it gets a reference and shows what it showed. -/
theorem Ok.load (h : c.Ok d) (hg : c.get k = some c') :
    Moves c (c'.fill k (d k)) d k (c.view d k) (c.refs k + 1) ∧ (c'.fill k (d k)).Loaded k := by
  have hget : Moves c c' d k (c.view d k) (c.refs k + 1) := by
    unfold BufferCache.get at hg
    split at hg
    · next hany =>
      obtain rfl := Option.some.inj hg
      obtain ⟨b, hb, hk⟩ := List.any_eq_true.mp hany
      exact h.reference (buffer_of_mem h.distinct hb (by simpa using hk))
    · next hany =>
      have hnone : c.buffer k = none := by
        rw [buffer_eq_none, mem_keys]
        rintro ⟨b, hb, hk⟩
        exact hany (List.any_eq_true.mpr ⟨b, hb, by simpa using hk⟩)
      have hm := h.recycle hnone hg
      have hview : c.view d k = d k := by unfold BufferCache.view; rw [hnone]
      have hrefs : c.refs k = 0 := by unfold BufferCache.refs; rw [hnone]
      rw [hview, hrefs]
      exact hm
  have hpos : 0 < c'.refs k := by
    rw [hget.refs, Function.update_self]
    exact Nat.succ_pos _
  obtain ⟨hfill, hl⟩ := hget.ok.fill hpos
  have hv : c'.view d k = c.view d k := by rw [hget.view, Function.update_self]
  have hr : c'.refs k = c.refs k + 1 := by rw [hget.refs, Function.update_self]
  rw [hv, hr] at hfill
  exact ⟨hget.trans hfill (Nat.succ_pos _), hl⟩

/-- **A cell is written to the store**, with the value that it shows. -/
theorem Ok.store (h : c.Ok d) (hl : c.Loaded k) :
    c.Ok (Function.update d k (c.view d k)) ∧
    c.view (Function.update d k (c.view d k)) = c.view d := by
  obtain ⟨b, hb, hv⟩ := hl
  have hvb : c.view d k = b.data := by rw [view_of_buffer hb, if_pos hv]
  refine ⟨⟨h.distinct, h.unused, fun k' b' hb' hv' hr' => ?_⟩, ?_⟩
  · by_cases hk : k' = k
    · rw [hk, Function.update_self, hvb]
      rw [hk, hb] at hb'
      rw [Option.some.inj hb']
    · rw [Function.update_of_ne hk]
      exact h.clean k' b' hb' hv' hr'
  · funext k'
    by_cases hk : k' = k
    · rw [hk, view_of_buffer hb, if_pos hv, hvb]
    · unfold BufferCache.view
      rw [Function.update_of_ne hk]

/-- There is a buffer for a cell, when fewer cells are referenced than there are buffers. -/
theorem Ok.get_isSome (h : c.Ok d) {S : List K} (hS : ∀ k', 0 < c.refs k' → k' ∈ S)
    (hlen : S.length < c.length) (k : K) : ∃ c', c.get k = some c' := by
  unfold BufferCache.get
  split
  · exact ⟨_, rfl⟩
  · -- otherwise all buffers are referenced, each of them by a cell of its own
    by_contra hno
    have hall : ∀ b ∈ c, 0 < b.refcnt := fun b hb => by
      by_contra hz
      exact hno (recycle_isSome hb (by omega))
    have hkeys : c.keys.length = c.length := by
      unfold keys
      rw [List.length_filterMap_eq_countP, List.countP_eq_length]
      intro b hb
      cases hkey : b.key with
      | some k' => rfl
      | none =>
        have := h.unused b hb hkey
        have := hall b hb
        omega
    have hsub : c.keys ⊆ S := fun k' hk' => by
      obtain ⟨b, hb, hkey⟩ := mem_keys.mp hk'
      apply hS
      rw [refs_of_buffer (buffer_of_mem h.distinct hb hkey)]
      exact hall b hb
    have := h.distinct.length_le_of_subset hsub
    omega

/-! ## References alone -/

/-- The references after a change of one buffer. -/
theorem refs_onKey {f : Buffer K V → Buffer K V} (hf : ∀ b, (f b).key = b.key)
    (c : BufferCache K V) (k : K)
    {g : Nat → Nat} (hg : ∀ b, (f b).refcnt = g b.refcnt) (h : c.buffer k = none → g 0 = 0) :
    (c.onKey k f).refs = Function.update c.refs k (g (c.refs k)) := by
  funext k'
  unfold refs
  rw [buffer_onKey hf]
  by_cases hk : k' = k
  · rw [hk, if_pos rfl, Function.update_self]
    cases hb : c.buffer k with
    | some b => exact hg b
    | none => exact (h hb).symm
  · rw [if_neg hk, Function.update_of_ne hk]

theorem refs_reference (h : 0 < c.refs k) :
    (c.reference k).refs = Function.update c.refs k (c.refs k + 1) := by
  obtain ⟨b, hb, -⟩ := buffer_of_refs h
  refine refs_onKey (f := fun b => { b with refcnt := b.refcnt + 1 }) (g := fun n => n + 1)
    (fun _ => rfl) c k (fun _ => rfl) fun hnone => ?_
  rw [hb] at hnone
  cases hnone

theorem refs_dereference (c : BufferCache K V) (k : K) :
    (c.dereference k).refs = Function.update c.refs k (c.refs k - 1) :=
  refs_onKey (f := fun b => { b with refcnt := b.refcnt - 1 }) (g := fun n => n - 1)
    (fun _ => rfl) c k (fun _ => rfl) fun _ => rfl

theorem refs_setData (c : BufferCache K V) (k : K) (v : V) : (c.setData k v).refs = c.refs := by
  have h := refs_onKey (f := fun b => { b with data := v }) (g := id) (fun _ => rfl) c k
    (fun _ => rfl) fun _ => rfl
  rwa [id, Function.update_eq_self] at h

theorem refs_fill (c : BufferCache K V) (k : K) (v : V) : (c.fill k v).refs = c.refs := by
  have h := refs_onKey (f := fun b => if b.valid then b else { b with data := v, valid := true })
    (g := id) (fun b => by split <;> rfl) c k (fun b => by split <;> rfl) fun _ => rfl
  rwa [id, Function.update_eq_self] at h

theorem refs_put (h : c.keys.Nodup) (k : K) :
    (c.put k).refs = Function.update c.refs k (c.refs k - 1) := by
  rw [← refs_dereference]
  funext k'
  rw [BufferCache.refs, BufferCache.refs, buffer_put h]

/-- **A buffer is got** for a cell: it has one more reference, also when a buffer is
recycled, which had none. -/
theorem refs_get (h : c.keys.Nodup) (hg : c.get k = some c') :
    c'.keys.Nodup ∧ c'.refs = Function.update c.refs k (c.refs k + 1) := by
  unfold BufferCache.get at hg
  split at hg
  · next hany =>
    obtain rfl := Option.some.inj hg
    obtain ⟨b, hb, hk⟩ := List.any_eq_true.mp hany
    have hbuf := buffer_of_mem h hb (of_decide_eq_true hk)
    refine ⟨?_, refs_onKey (f := fun b => { b with refcnt := b.refcnt + 1 }) (g := fun n => n + 1)
      (fun _ => rfl) c k (fun _ => rfl) fun hnone => ?_⟩
    · rw [keys_reference]
      exact h
    · rw [hbuf] at hnone
      cases hnone
  · next hany =>
    have hnone : c.buffer k = none := by
      rw [buffer_eq_none, mem_keys]
      rintro ⟨b, hb, hk⟩
      exact hany (List.any_eq_true.mpr ⟨b, hb, decide_eq_true hk⟩)
    obtain ⟨hkeys, ⟨b, hself, -, hone⟩, hother⟩ := recycle_buffer h hnone hg
    refine ⟨hkeys, funext fun k' => ?_⟩
    by_cases hk' : k' = k
    · rw [hk', Function.update_self, refs_of_buffer hself, hone, BufferCache.refs, hnone]
    · rw [Function.update_of_ne hk']
      rcases hother k' hk' with hsame | ⟨hnone', b₁, hb₁, hr₁⟩
      · rw [BufferCache.refs, BufferCache.refs, hsame]
      · rw [refs_of_buffer hb₁, hr₁, BufferCache.refs, hnone']

end BufferCache
