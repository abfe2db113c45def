import Mathlib.Data.List.Induction
import Mathlib.Logic.Function.Basic

/-!
# Redo logs

A store that writes one cell at a time, and a log in it that makes the writes of a transaction
atomic: the new values are copied to the slots of the log, then one write of the header commits
them, then they are installed in their cells, then the header is cleared. Recovery installs what
the header names and clears it. A crash leaves the store as it is after some of the writes;
recovery may crash as well.

What a crash can leave is one of three phases: the log is empty and the old values are there; the
log holds all of the new values; the log is empty and the new values are there.

## Main definitions

* `applyWrites`: the store after a list of writes
* `RedoLog`: where the log is in the store, and how its header is read
* `RedoLog.commitWrites`, `RedoLog.recoveryWrites`: the writes of a commit and of a recovery
* `RedoLog.Empty`, `RedoLog.Full`: the log is empty, or it holds a transaction

## Main results

* `RedoLog.crash_commit`: the phases that a crash in a commit can leave
* `RedoLog.Empty.crash_recovery`, `RedoLog.Full.crash_recovery`: a crash in a recovery
* `RedoLog.Empty.recovered`, `RedoLog.Full.recovered`: the phase after a recovery
-/

variable {K V : Type} [DecidableEq K] {d : K → V} {k : K} {v : V} {ws ws' : List (K × V)}

/-! ## Writes -/

/-- The store after a list of writes. -/
def applyWrites (d : K → V) (ws : List (K × V)) : K → V :=
  ws.foldl (fun d w => Function.update d w.1 w.2) d

@[simp] theorem applyWrites_nil (d : K → V) : applyWrites d [] = d := rfl

theorem applyWrites_append (d : K → V) (ws ws' : List (K × V)) :
    applyWrites d (ws ++ ws') = applyWrites (applyWrites d ws) ws' := List.foldl_append

theorem applyWrites_concat (d : K → V) (ws : List (K × V)) (w : K × V) :
    applyWrites d (ws ++ [w]) = Function.update (applyWrites d ws) w.1 w.2 := by
  rw [applyWrites_append]
  rfl

/-- A cell that is not written. -/
theorem applyWrites_of_ne (h : ∀ w ∈ ws, w.1 ≠ k) : applyWrites d ws k = d k := by
  induction ws using List.reverseRecOn with
  | nil => rfl
  | append_singleton ws w ih =>
    rw [applyWrites_concat, Function.update_of_ne (h w (by simp)).symm]
    exact ih fun w' hw' => h w' (List.mem_append_left _ hw')

/-- A cell that is written, always with the same value. -/
theorem applyWrites_of_mem (h : (k, v) ∈ ws) (hall : ∀ v', (k, v') ∈ ws → v' = v) :
    applyWrites d ws k = v := by
  induction ws using List.reverseRecOn with
  | nil => cases h
  | append_singleton ws w ih =>
    rw [applyWrites_concat]
    by_cases hk : k = w.1
    · rw [hk, Function.update_self]
      refine hall w.2 (List.mem_append_right _ ?_)
      rw [hk]
      exact List.mem_singleton_self w
    · rw [Function.update_of_ne hk]
      refine ih ((List.mem_append.mp h).resolve_right fun hw => ?_) fun v' hv' =>
        hall v' (List.mem_append_left _ hv')
      rw [← List.mem_singleton.mp hw] at hk
      exact hk rfl

/-- A part of two lists of writes, from the start on. -/
theorem prefix_append_cases {α : Type} {l l₁ l₂ : List α} (h : l <+: l₁ ++ l₂) :
    l <+: l₁ ∨ ∃ l', l = l₁ ++ l' ∧ l' <+: l₂ := by
  rcases List.prefix_or_prefix_of_prefix h (List.prefix_append l₁ l₂) with hle | ⟨l', rfl⟩
  · exact Or.inl hle
  · exact Or.inr ⟨l', rfl, (List.prefix_append_right_inj l₁).mp h⟩

theorem prefix_singleton_cases {α : Type} {l : List α} {a : α} (h : l <+: [a]) :
    l = [] ∨ l = [a] := by
  rcases List.prefix_cons_iff.mp h with rfl | ⟨t, rfl, ht⟩
  · exact Or.inl rfl
  · rw [List.prefix_nil.mp ht]
    exact Or.inr rfl

/-! ## The log -/

/-- A log in a store: its header, its slots, and the cells that a header names. -/
structure RedoLog (K V : Type) where
  header : K
  slot : Nat → K
  size : Nat
  entries : V → List K
  slot_inj : ∀ i j, i < size → j < size → slot i = slot j → i = j
  slot_ne : ∀ i, i < size → slot i ≠ header

namespace RedoLog

variable {L : RedoLog K V} {old new : K → V} {ks : List K} {h h₀ : V}

/-- The cell is not part of the log. -/
def Home (L : RedoLog K V) (k : K) : Prop := k ≠ L.header ∧ ∀ i, i < L.size → k ≠ L.slot i

/-- The writes to the slots. -/
def slotWrites (L : RedoLog K V) (ks : List K) (new : K → V) : List (K × V) :=
  ks.zipIdx.map fun p => (L.slot p.2, new p.1)

/-- The writes that install the new values. -/
def installWrites (ks : List K) (new : K → V) : List (K × V) := ks.map fun k => (k, new k)

/-- **The writes of a commit**, with the header that names `ks` and the one that names nothing. -/
def commitWrites (L : RedoLog K V) (ks : List K) (new : K → V) (h h₀ : V) : List (K × V) :=
  L.slotWrites ks new ++ ((L.header, h) :: (installWrites ks new ++ [(L.header, h₀)]))

/-- **The writes of a recovery** of the store `d`. -/
def recoveryWrites (L : RedoLog K V) (d : K → V) (h₀ : V) : List (K × V) :=
  ((L.entries (d L.header)).zipIdx.map fun p => (p.1, d (L.slot p.2))) ++ [(L.header, h₀)]

/-- The log is empty, and the cells outside it are those of `c`. -/
structure Empty (L : RedoLog K V) (c d : K → V) : Prop where
  entries : L.entries (d L.header) = []
  home : ∀ k, L.Home k → d k = c k

/-- The log holds the values of `new` for `ks`, and the other cells are those of `new`. -/
structure Full (L : RedoLog K V) (ks : List K) (new d : K → V) : Prop where
  entries : L.entries (d L.header) = ks
  slots : ∀ p ∈ ks.zipIdx, d (L.slot p.2) = new p.1
  home : ∀ k, L.Home k → k ∉ ks → d k = new k

/-! ## Which cells a write touches -/

omit [DecidableEq K] in
theorem mem_slotWrites {w : K × V} (hw : w ∈ L.slotWrites ks new) (hsize : ks.length ≤ L.size) :
    ∃ i, i < L.size ∧ w.1 = L.slot i := by
  obtain ⟨p, hp, rfl⟩ := List.mem_map.mp hw
  have := List.snd_lt_of_mem_zipIdx hp
  exact ⟨p.2, by omega, rfl⟩

omit [DecidableEq K] in
theorem mem_installWrites {w : K × V} (hw : w ∈ installWrites ks new) :
    w.1 ∈ ks ∧ w.2 = new w.1 := by
  obtain ⟨k, hk, rfl⟩ := List.mem_map.mp hw
  exact ⟨hk, rfl⟩

/-- Writes to slots keep the header and what is outside the log. -/
theorem Empty.slots (hd : L.Empty old d) (hws : ∀ w ∈ ws, ∃ i, i < L.size ∧ w.1 = L.slot i) :
    L.Empty old (applyWrites d ws) where
  entries := by
    rw [applyWrites_of_ne fun w hw => ?_]
    · exact hd.entries
    · obtain ⟨i, hi, heq⟩ := hws w hw
      rw [heq]
      exact L.slot_ne i hi
  home k hk := by
    rw [applyWrites_of_ne fun w hw => ?_]
    · exact hd.home k hk
    · obtain ⟨i, hi, heq⟩ := hws w hw
      rw [heq]
      exact (hk.2 i hi).symm

/-- What the slots hold after the writes to them. -/
theorem applyWrites_slotWrites (hsize : ks.length ≤ L.size) {p : K × Nat} (hp : p ∈ ks.zipIdx) :
    applyWrites d (L.slotWrites ks new) (L.slot p.2) = new p.1 := by
  refine applyWrites_of_mem (List.mem_map.mpr ⟨p, hp, rfl⟩) fun v' hv' => ?_
  obtain ⟨q, hq, heq⟩ := List.mem_map.mp hv'
  obtain ⟨hslot, rfl⟩ := Prod.mk.inj heq
  have hp' := List.snd_lt_of_mem_zipIdx hp
  have hq' := List.snd_lt_of_mem_zipIdx hq
  have hidx : q.2 = p.2 := L.slot_inj _ _ (by omega) (by omega) hslot
  -- both are the entry at one place
  have h₁ := (List.mem_zipIdx_iff_getElem?.mp hp)
  have h₂ := (List.mem_zipIdx_iff_getElem?.mp hq)
  rw [hidx, h₁] at h₂
  rw [Option.some.inj h₂]

/-- **The write of the header commits**: from then on the log holds the transaction. -/
theorem Empty.commit (hd : L.Empty old d) (hsize : ks.length ≤ L.size) (hks : L.entries h = ks)
    (hsame : ∀ k, k ∉ ks → new k = old k) :
    L.Full ks new (applyWrites d (L.slotWrites ks new ++ [(L.header, h)])) := by
  have hslots := hd.slots fun w (hw : w ∈ L.slotWrites ks new) => mem_slotWrites hw hsize
  rw [applyWrites_concat]
  refine ⟨by rw [Function.update_self, hks], fun p hp => ?_, fun k hk hn => ?_⟩
  · have := List.snd_lt_of_mem_zipIdx hp
    rw [Function.update_of_ne (L.slot_ne _ (by omega))]
    exact applyWrites_slotWrites hsize hp
  · rw [Function.update_of_ne hk.1, hslots.home k hk, hsame k hn]

/-- Installing keeps the log: it writes to cells that the log names. -/
theorem Full.install (hd : L.Full ks new d) (hsize : ks.length ≤ L.size)
    (hhome : ∀ k ∈ ks, L.Home k) (hws : ∀ w ∈ ws, w.1 ∈ ks) : L.Full ks new (applyWrites d ws) where
  entries := by
    rw [applyWrites_of_ne fun w hw => ?_]
    · exact hd.entries
    · exact (hhome _ (hws w hw)).1
  slots p hp := by
    rw [applyWrites_of_ne fun w hw => ?_]
    · exact hd.slots p hp
    · have := List.snd_lt_of_mem_zipIdx hp
      exact (hhome _ (hws w hw)).2 p.2 (by omega)
  home k hk hn := by
    rw [applyWrites_of_ne fun w hw => ?_]
    · exact hd.home k hk hn
    · rintro rfl
      exact hn (hws w hw)

/-- **After the installation** the header may be cleared. -/
theorem Full.clear (hd : L.Full ks new d) (hws : ∀ w ∈ ws, w.1 ∈ ks ∧ w.2 = new w.1)
    (hall : ∀ k ∈ ks, (k, new k) ∈ ws) (h₀' : L.entries h₀ = []) :
    L.Empty new (applyWrites d (ws ++ [(L.header, h₀)])) := by
  rw [applyWrites_concat]
  refine ⟨by rw [Function.update_self, h₀'], fun k hk => ?_⟩
  rw [Function.update_of_ne hk.1]
  by_cases hmem : k ∈ ks
  · exact applyWrites_of_mem (hall k hmem) fun v' hv' => (hws _ hv').2
  · rw [applyWrites_of_ne fun w hw => ?_]
    · exact hd.home k hk hmem
    · rintro rfl
      exact hmem (hws w hw).1

/-! ## Crashes -/

/-- **A crash in a commit** leaves the old values, the whole transaction in the log, or the new
values; and the new values are there when all writes were made. -/
theorem crash_commit (hd : L.Empty old d) (hsize : ks.length ≤ L.size) (hhome : ∀ k ∈ ks, L.Home k)
    (hks : L.entries h = ks) (h₀' : L.entries h₀ = []) (hsame : ∀ k, k ∉ ks → new k = old k)
    (hws : ws <+: L.commitWrites ks new h h₀) :
    (L.Empty old (applyWrites d ws) ∨ L.Full ks new (applyWrites d ws) ∨
      L.Empty new (applyWrites d ws)) ∧
    (ws = L.commitWrites ks new h h₀ → L.Empty new (applyWrites d ws)) := by
  have hfull := hd.commit hsize hks hsame
  have hinst : ∀ w ∈ installWrites ks new, w.1 ∈ ks ∧ w.2 = new w.1 := fun w hw =>
    mem_installWrites hw
  have hclear := hfull.clear hinst (fun k hk => List.mem_map.mpr ⟨k, hk, rfl⟩) h₀'
  have hwhole : L.commitWrites ks new h h₀ =
      (L.slotWrites ks new ++ [(L.header, h)]) ++ (installWrites ks new ++ [(L.header, h₀)]) := by
    simp [commitWrites]
  rw [hwhole] at hws ⊢
  rw [← applyWrites_append] at hclear
  refine ⟨?_, fun heq => by rw [heq]; exact hclear⟩
  rcases prefix_append_cases hws with hpre | ⟨l, rfl, hl⟩
  · rcases prefix_append_cases hpre with hpre | ⟨l, rfl, hl⟩
    · -- the log is being copied
      exact Or.inl (hd.slots fun w hw => mem_slotWrites (hpre.subset hw) hsize)
    · rcases prefix_singleton_cases hl with rfl | rfl
      · rw [List.append_nil]
        exact Or.inl (hd.slots fun w hw => mem_slotWrites hw hsize)
      · exact Or.inr (Or.inl hfull)
  · rw [applyWrites_append]
    rcases prefix_append_cases hl with hpre | ⟨l', rfl, hl'⟩
    · exact Or.inr (Or.inl (hfull.install hsize hhome fun w hw => (hinst w (hpre.subset hw)).1))
    · rcases prefix_singleton_cases hl' with rfl | rfl
      · rw [List.append_nil]
        exact Or.inr (Or.inl (hfull.install hsize hhome fun w hw => (hinst w hw).1))
      · rw [← applyWrites_append]
        exact Or.inr (Or.inr hclear)

omit [DecidableEq K] in
theorem recoveryWrites_of_empty (hd : L.Empty old d) :
    L.recoveryWrites d h₀ = [(L.header, h₀)] := by
  unfold recoveryWrites
  rw [hd.entries]
  rfl

omit [DecidableEq K] in
theorem recoveryWrites_of_full (hd : L.Full ks new d) :
    L.recoveryWrites d h₀ = installWrites ks new ++ [(L.header, h₀)] := by
  unfold recoveryWrites installWrites
  rw [hd.entries]
  congr 1
  conv_rhs => rw [← List.zipIdx_map_fst 0 ks, List.map_map]
  apply List.map_congr_left
  intro p hp
  rw [hd.slots p hp]
  rfl

/-- **A recovery** of an empty log keeps the values, and leaves the log empty. -/
theorem Empty.recovered (hd : L.Empty old d) (h₀' : L.entries h₀ = []) :
    L.Empty old (applyWrites d (L.recoveryWrites d h₀)) := by
  rw [recoveryWrites_of_empty hd]
  refine ⟨?_, fun k hk => ?_⟩
  · rw [show [(L.header, h₀)] = [] ++ [(L.header, h₀)] from rfl, applyWrites_concat,
      Function.update_self, h₀']
  · rw [show [(L.header, h₀)] = [] ++ [(L.header, h₀)] from rfl, applyWrites_concat,
      Function.update_of_ne hk.1]
    exact hd.home k hk

/-- **A recovery** of a log with a transaction installs it. -/
theorem Full.recovered (hd : L.Full ks new d) (h₀' : L.entries h₀ = []) :
    L.Empty new (applyWrites d (L.recoveryWrites d h₀)) := by
  rw [recoveryWrites_of_full hd]
  exact hd.clear (fun w hw => mem_installWrites hw) (fun k hk => List.mem_map.mpr ⟨k, hk, rfl⟩) h₀'

/-- A crash in a recovery of an empty log. -/
theorem Empty.crash_recovery (hd : L.Empty old d) (h₀' : L.entries h₀ = [])
    (hws : ws <+: L.recoveryWrites d h₀) : L.Empty old (applyWrites d ws) := by
  have hrec := hd.recovered h₀'
  rw [recoveryWrites_of_empty hd] at hws hrec
  rcases prefix_singleton_cases hws with rfl | rfl
  · exact hd
  · exact hrec

/-- A crash in a recovery of a log with a transaction. -/
theorem Full.crash_recovery (hd : L.Full ks new d) (hsize : ks.length ≤ L.size)
    (hhome : ∀ k ∈ ks, L.Home k) (h₀' : L.entries h₀ = []) (hws : ws <+: L.recoveryWrites d h₀) :
    L.Full ks new (applyWrites d ws) ∨ L.Empty new (applyWrites d ws) := by
  have hrec := hd.recovered h₀'
  rw [recoveryWrites_of_full hd] at hws hrec
  rcases prefix_append_cases hws with hpre | ⟨l, rfl, hl⟩
  · exact Or.inl (hd.install hsize hhome fun w hw => (mem_installWrites (hpre.subset hw)).1)
  · rcases prefix_singleton_cases hl with rfl | rfl
    · rw [List.append_nil]
      exact Or.inl (hd.install hsize hhome fun w hw => (mem_installWrites hw).1)
    · exact Or.inr hrec

end RedoLog
