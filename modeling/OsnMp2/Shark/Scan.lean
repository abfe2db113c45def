import OsnMp2.Shark.Model

/-!
# What the readers of C-Shark read

For each of the small readers: its result, as a function of the memory, and the bytes that it reads.

## Main results

* `value_net16`, `value_net32`: a number in network order is read with its first byte in front
* `value_printHexDump`, `hexRows_bytes`: a hex dump shows the bytes
* `within_net16`, `within_printHexDump`: which bytes are read
-/

namespace CShark

open Reads

variable {m : Nat → Byte} {n p : Nat}

/-! ## Numbers -/

theorem ntohs_append (b₀ b₁ : Byte) : ntohs (b₁ ++ b₀) = b₀ ++ b₁ := by
  have h₀ : (b₁ ++ b₀).extractLsb' 0 8 = b₀ := BitVec.extractLsb'_append_eq_right
  have h₁ : (b₁ ++ b₀).extractLsb' 8 8 = b₁ := BitVec.extractLsb'_append_eq_left
  exact congrArg₂ (fun (x y : Byte) => x ++ y) h₀ h₁

theorem ntohl_append (b₀ b₁ b₂ b₃ : Byte) : ntohl (b₃ ++ b₂ ++ b₁ ++ b₀) = b₀ ++ b₁ ++
    b₂ ++ b₃ := by
  have h₀ : (b₃ ++ b₂ ++ b₁ ++ b₀).extractLsb' 0 8 = b₀ := BitVec.extractLsb'_append_eq_right
  have h₁ : (b₃ ++ b₂ ++ b₁ ++ b₀).extractLsb' 8 8 = b₁ :=
    (BitVec.extractLsb'_append_eq_of_le (by decide)).trans BitVec.extractLsb'_append_eq_right
  have h₂ : (b₃ ++ b₂ ++ b₁ ++ b₀).extractLsb' 16 8 = b₂ :=
    (BitVec.extractLsb'_append_eq_of_le (by decide)).trans
      ((BitVec.extractLsb'_append_eq_of_le (by decide)).trans BitVec.extractLsb'_append_eq_right)
  have h₃ : (b₃ ++ b₂ ++ b₁ ++ b₀).extractLsb' 24 8 = b₃ :=
    (BitVec.extractLsb'_append_eq_of_le (by decide)).trans
      ((BitVec.extractLsb'_append_eq_of_le (by decide)).trans BitVec.extractLsb'_append_eq_left)
  unfold ntohl
  rw [h₀, h₁, h₂, h₃]

@[simp] theorem value_load16 : (load16 p).value m = m (p + 1) ++ m p := rfl

@[simp] theorem value_net16 : (net16 p).value m = m p ++ m (p + 1) := ntohs_append _ _

@[simp] theorem value_net32 : (net32 p).value m = m p ++ m (p + 1) ++ m (p + 2) ++ m (p + 3) :=
  ntohl_append _ _ _ _

@[simp] theorem value_lowNibble : (lowNibble p).value m = ((m p).extractLsb' 0 4).toNat := rfl

@[simp] theorem value_highNibble : (highNibble p).value m = ((m p).extractLsb' 4 4).toNat := rfl

@[simp] theorem value_printMacAddress : (printMacAddress p).value m = .addr (cells m p 6) := by
  simp [printMacAddress]

@[simp] theorem value_inetNtop (k : Nat) : (inetNtop p k).value m = .addr (cells m p k) := by
  simp [inetNtop]

theorem within_load16 : Within n (load16 p) m ↔ p + 2 ≤ n := by
  unfold load16
  simp only [within_bind, within_load, within_pure, and_true]
  omega

theorem within_load32 : Within n (load32 p) m ↔ p + 4 ≤ n := by
  unfold load32
  simp only [within_bind, within_load, within_pure, and_true]
  omega

theorem within_net16 : Within n (net16 p) m ↔ p + 2 ≤ n := by
  rw [net16, within_bind, within_load16, within_pure, and_true]

theorem within_net32 : Within n (net32 p) m ↔ p + 4 ≤ n := by
  rw [net32, within_bind, within_load32, within_pure, and_true]

theorem within_lowNibble : Within n (lowNibble p) m ↔ p < n := by
  rw [lowNibble, within_bind, within_load, within_pure, and_true]

theorem within_highNibble : Within n (highNibble p) m ↔ p < n := by
  rw [highNibble, within_bind, within_load, within_pure, and_true]

theorem within_printMacAddress : Within n (printMacAddress p) m ↔ p + 6 ≤ n := by
  rw [printMacAddress, within_bind, within_loads, within_pure, and_true]
  omega

theorem within_inetNtop {k : Nat} (hk : 0 < k) : Within n (inetNtop p k) m ↔ p + k ≤ n := by
  rw [inetNtop, within_bind, within_loads, within_pure, and_true]
  omega

/-! ## Hex dumps -/

/-- The lines of a hex dump of some bytes. -/
def hexRows (l : List Byte) : List Row :=
  (List.range ((l.length + 15) / 16)).map fun r =>
    { hex := (l.drop (16 * r)).take 16, ascii := ((l.drop (16 * r)).take 16).map printable }

/-- **A hex dump shows** the bytes that are there. -/
@[simp] theorem value_printHexDump (len : Int) :
    (printHexDump p len).value m = hexRows (cells m p len.toNat) := by
  unfold printHexDump hexRows
  rw [value_each, length_cells]
  apply List.map_congr_left
  intro r _
  rw [take_drop_cells]
  simp [dumpRow]

theorem within_dumpRow (k : Nat) : Within n (dumpRow p k) m ↔ k = 0 ∨ p + k ≤ n := by
  unfold dumpRow
  rw [within_bind, within_bind, within_loads, within_pure, and_true, and_self_iff]

theorem within_printHexDump (len : Int) : Within n (printHexDump p len) m ↔ len ≤ 0 ∨
    p + len.toNat ≤ n := by
  unfold printHexDump
  rw [within_each]
  simp only [List.mem_range, within_dumpRow]
  constructor
  · intro h
    by_cases hlen : len ≤ 0
    · exact Or.inl hlen
    · -- the last line reaches furthest
      have hlast := h ((len.toNat + 15) / 16 - 1) (by omega)
      exact Or.inr (by omega)
  · rintro h r hr
    omega

/-- The lines of a dump, from the bytes on. -/
theorem flatMap_rows (l : List Byte) (k : Nat) :
    (List.range k).flatMap (fun r => (l.drop (16 * r)).take 16) = l.take (16 * k) := by
  induction k with
  | zero => simp
  | succ k ih =>
    rw [List.range_succ, List.flatMap_append, ih, List.flatMap_singleton,
      show 16 * (k + 1) = 16 * k + 16 by omega, List.take_add]

/-- **All bytes are shown**, in their order. -/
theorem hexRows_bytes (l : List Byte) : (hexRows l).flatMap Row.hex = l := by
  unfold hexRows
  rw [List.flatMap_map, flatMap_rows]
  exact List.take_of_length_le (by omega)

/-! ## Storing -/

/-- Storing a packet says nothing. -/
@[simp] theorem announced_storePacket (header : PktHdr) (packet : Nat → Byte) (packetId : BitVec 32)
    (malloc : Bool)
    (s : Shark) : (storePacket header packet packetId malloc s).announced = s.announced := by
  unfold storePacket
  split
  · rfl
  · cases malloc <;> rfl

end CShark
