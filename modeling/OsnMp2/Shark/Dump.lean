import Mathlib.Data.List.Flatten
import OsnMp2.Shark.Scan

/-!
# The text of a hex dump

`print_hex_dump` character by character. The full lines are closed inside the loop over the bytes,
with indices that go back from the last byte of the line; the rest is closed behind the loop, with
indices that go forward from the last multiple of 16. Both come to the same line of the same bytes,
so the text is the lines of `hexRows`, and what stands in the hex columns can be read back.

## Main definitions

* `Dump.printHexDump`: the characters that `print_hex_dump` prints
* `Row.line`: a line, from its bytes
* `Dump.lines`, `Dump.readHex`: a text taken apart again
* `Dump.Lossless`: the bytes can be read back from the text

## Main results

* `Dump.value_printHexDump`: the text is the lines of the bytes
* `Dump.hex_dump_lossless`: the text of all bytes is such
-/

namespace CShark

/-- A digit of `%X`. -/
def hexDigit (d : Nat) : Char := if d < 10 then Char.ofNat (48 + d) else Char.ofNat (55 + d)

/-- `printf("%02X ", b)`. -/
def hexByte (b : Byte) : List Char := [hexDigit (b.toNat / 16), hexDigit (b.toNat % 16), ' ']

/-- A line: the hex columns, padded to 48, two blanks, and the text column. -/
def Row.line (row : Row) : List Char := (row.hex.flatMap hexByte).rightpad 48 ' ' ++
    [' ', ' '] ++ row.ascii

namespace Dump

open Reads

/-! ## The code -/

/-- A loop whose body prints. -/
def prints (f : Nat → Scan (List Char)) (is : List Nat) : Scan (List Char) := do
  let texts ← each f is
  return texts.flatten

/-- `printf("%02X ", data[i])`. -/
def printHex (p i : Nat) : Scan (List Char) := do
  let b ← load (p + i)
  return hexByte b

/-- `printf("%c", …)` of the byte at `j`. -/
def printChar (p j : Nat) : Scan (List Char) := do
  let b ← load (p + j)
  return [printable b]

/-- The text column with the bytes from `lo` up to `hi`, and the end of the line. -/
def closeLine (p lo hi : Nat) : Scan (List Char) := do
  let text ← prints (printChar p) (List.range' lo (hi - lo))
  return [' ', ' '] ++ text ++ ['\n']

/-- The body of the loop over the bytes. -/
def printByte (p i : Nat) : Scan (List Char) := do
  let hex ← printHex p i
  if (i + 1) % 16 = 0 then
    let rest ← closeLine p (i - 15) (i + 1)
    return hex ++ rest
  else return hex

/-- `print_hex_dump`. -/
def printHexDump (p : Nat) (len : Int) : Scan (List Char) := do
  let full ← prints (printByte p) (List.range len.toNat)
  if len.tmod 16 ≠ 0 then
    let pad := 16 - len.tmod 16
    let rest ← closeLine p (len - len.tmod 16).toNat len.toNat
    return full ++ (List.replicate pad.toNat [' ', ' ', ' ']).flatten ++ rest
  else return full

/-! ## What is printed -/

variable {m : Nat → Byte} {p : Nat}

theorem value_prints (f : Nat → Scan (List Char)) (is : List Nat) :
    (prints f is).value m = is.flatMap fun i => (f i).value m := by
  rw [prints, value_bind, value_each, value_pure]
  rfl

theorem value_closeLine (lo n : Nat) :
    (closeLine p lo (lo + n)).value m = [' ', ' '] ++ (cells m (p + lo) n).map printable ++
    ['\n'] := by
  rw [closeLine, value_bind, value_prints, value_pure, Nat.add_sub_cancel_left,
    List.range'_eq_map_range, List.flatMap_map]
  congr 2
  simp only [printChar, value_bind, value_load, value_pure, cells, List.map_map]
  rw [← List.map_eq_flatMap]
  apply List.map_congr_left
  intro i _
  rw [Function.comp_apply, Nat.add_assoc]

/-- A byte inside a line is a column. -/
theorem value_printByte_of_ne {i : Nat} (h : (i + 1) % 16 ≠ 0) :
    (printByte p i).value m = hexByte (m (p + i)) := by
  rw [printByte, value_bind, if_neg h]
  rfl

/-- The columns inside a line. -/
theorem flatMap_printByte (r n : Nat) (hn : n ≤ 15) :
    ((List.range n).flatMap fun i => (printByte p (16 * r + i)).value m) =
      (cells m (p + 16 * r) n).flatMap hexByte := by
  rw [cells, List.flatMap_map]
  apply List.flatMap_congr
  intro i hi
  rw [List.mem_range] at hi
  rw [value_printByte_of_ne (by omega), Nat.add_assoc]

/-- **A full line**: the last byte closes it. -/
theorem fullLine (r : Nat) :
    ((List.range 16).flatMap fun i => (printByte p (16 * r + i)).value m) =
      (cells m (p + 16 * r) 16).flatMap hexByte ++ [' ', ' '] ++
      (cells m (p + 16 * r) 16).map printable ++
        ['\n'] := by
  have hlast : (printByte p (16 * r + 15)).value m = hexByte (m (p + 16 * r + 15)) ++
      ([' ', ' '] ++ (cells m (p + 16 * r) 16).map printable ++ ['\n']) := by
    rw [printByte, value_bind, if_pos (by omega), value_bind, value_pure,
      show 16 * r + 15 - 15 = 16 * r by omega, show 16 * r + 15 + 1 = 16 * r + 16 by omega,
      value_closeLine,
      Nat.add_assoc]
    rfl
  have hcells : cells m (p + 16 * r) 16 = cells m (p + 16 * r) 15 ++ [m (p + 16 * r + 15)] := by
    rw [cells, List.range_succ, List.map_append]
    rfl
  rw [List.range_succ, List.flatMap_append, flatMap_printByte r 15 (by omega),
    List.flatMap_singleton, hlast]
  conv_rhs => rw [hcells, List.flatMap_append, List.flatMap_singleton, ← hcells]
  simp only [List.append_assoc]

/-- The loop over the bytes of `q` full lines. -/
theorem fullLines (q : Nat) :
    ((List.range (16 * q)).flatMap fun i => (printByte p i).value m) =
      (List.range q).flatMap fun r => (cells m (p + 16 * r) 16).flatMap hexByte ++ [' ', ' '] ++
        (cells m (p + 16 * r) 16).map printable ++ ['\n'] := by
  induction q with
  | zero => rfl
  | succ q ih =>
    rw [List.range_succ, List.flatMap_append, ← ih, List.flatMap_singleton, ← fullLine,
      show 16 * (q + 1) = 16 * q + 16 by omega, List.range_add, List.flatMap_append,
      List.flatMap_map]

/-- The bytes of the line `r`. -/
def lineBytes (l : List Byte) (r : Nat) : List Byte := (l.drop (16 * r)).take 16

theorem length_hexColumns (b : List Byte) : (b.flatMap hexByte).length = 3 * b.length := by
  induction b with
  | nil => rfl
  | cons x b ih =>
    rw [List.flatMap_cons, List.length_append, ih, List.length_cons]
    show 3 + _ = _
    omega

theorem length_blanks (n : Nat) :
    (List.replicate n [' ', ' ', ' ']).flatten = List.replicate (3 * n) ' ' := by
  rw [show [' ', ' ', ' '] = List.replicate 3 ' ' from rfl, List.flatten_replicate_replicate,
    Nat.mul_comm]

/-- **The text is the lines of the bytes**, the full ones and the last. -/
theorem value_printHexDump (len : Nat) : (printHexDump p len).value m =
    (hexRows (cells m p len)).flatMap fun row => row.line ++ ['\n'] := by
  have hrow : ∀ r, lineBytes (cells m p len) r = cells m (p + 16 * r) (min 16 (len - 16 * r)) :=
    fun r => take_drop_cells p (16 * r) 16
  have hmod : (len : Int).tmod 16 = (len % 16 : Nat) := rfl
  have hfull : (List.range (len / 16)).flatMap (fun r => (cells m (p + 16 * r) 16).flatMap
    hexByte ++ [' ', ' '] ++
      (cells m (p + 16 * r) 16).map printable ++ ['\n']) =
        (List.range (len / 16)).flatMap fun r =>
          (Row.mk (lineBytes (cells m p len) r) ((lineBytes (cells m p len) r).map
            printable)).line ++ ['\n'] := by
    apply List.flatMap_congr
    intro r hr
    rw [List.mem_range] at hr
    rw [hrow, Nat.min_eq_left (by omega), Row.line, List.rightpad, length_hexColumns, length_cells]
    simp
  have hloop : (List.range len).flatMap (fun i => (printByte p i).value m) =
      (List.range (16 * (len / 16))).flatMap (fun i => (printByte p i).value m) ++
        (cells m (p + 16 * (len / 16)) (len % 16)).flatMap hexByte := by
    conv_lhs => rw [← Nat.div_add_mod len 16]
    rw [List.range_add, List.flatMap_append, List.flatMap_map, flatMap_printByte _ _ (by omega)]
  unfold printHexDump hexRows
  rw [value_bind, value_prints, Int.toNat_natCast, hloop, fullLines, hfull, length_cells,
    List.flatMap_map, hmod]
  by_cases hrest : len % 16 = 0
  · -- the last line is a full one
    rw [if_neg (by omega), value_pure, hrest, show (len + 15) / 16 = len / 16 by omega]
    simp [cells, lineBytes]
  · have hlo : ((len : Int) - (len % 16 : Nat)).toNat = 16 * (len / 16) := by omega
    have hend : len = 16 * (len / 16) + len % 16 := by omega
    have hclose : (closeLine p (16 * (len / 16)) len).value m = [' ', ' '] ++
        (cells m (p + 16 * (len / 16)) (len % 16)).map printable ++ ['\n'] := by
      conv_lhs => rw [hend]
      rw [show 16 * ((16 * (len / 16) + len % 16) / 16) = 16 * (len / 16) by omega, value_closeLine]
    have hlast := hrow (len / 16)
    rw [Nat.min_eq_right (by omega), show len - 16 * (len / 16) = len % 16 by omega] at hlast
    rw [if_pos (by omega), value_bind, value_pure, hlo, hclose, length_blanks,
      show (len + 15) / 16 = len / 16 + 1 by omega, List.range_succ, List.flatMap_append,
      List.flatMap_singleton]
    unfold lineBytes at hlast
    rw [hlast, Row.line, List.rightpad, length_hexColumns, length_cells,
      show 3 * ((16 : Int) - (len % 16 : Nat)).toNat = 48 - 3 * (len % 16) by omega]
    simp only [List.append_assoc]
    rfl

/-- The text is that of the rows that the views show. -/
theorem text_of_rows (len : Nat) : (printHexDump p len).value m =
    ((CShark.printHexDump p len).value m).flatMap fun row => row.line ++ ['\n'] := by
  rw [value_printHexDump, CShark.value_printHexDump, Int.toNat_natCast]

/-! ## Reading the text -/

/-- The lines of a text. -/
def lines (text : List Char) : List (List Char) := (text.splitOn '\n').dropLast

/-- The value of a digit of `%X`. -/
def hexValue (c : Char) : Option Nat :=
  if '0' ≤ c ∧ c ≤ '9' then some (c.toNat - 48)
  else if 'A' ≤ c ∧ c ≤ 'F' then some (c.toNat - 55)
  else none

/-- The bytes in hex columns, up to the first that is blank. -/
def readHex : List Char → List Byte
  | hi :: lo :: _ :: rest =>
    match hexValue hi, hexValue lo with
    | some x, some y => BitVec.ofNat 8 (16 * x + y) :: readHex rest
    | _, _ => []
  | _ => []

theorem hexValue_hexDigit : ∀ d < 16, hexValue (hexDigit d) = some d := by
  decide

theorem hexDigit_ne_newline : ∀ d < 16, hexDigit d ≠ '\n' := by
  decide

/-- **Reading back the columns** of some bytes gives the bytes. -/
theorem readHex_columns (b : List Byte) (n : Nat) :
    readHex (b.flatMap hexByte ++ List.replicate n ' ') = b := by
  induction b with
  | nil =>
    show readHex (List.replicate n ' ') = []
    rcases n with _ | _ | _ | n <;> rfl
  | cons x b ih =>
    have hx : x.toNat < 256 := x.isLt
    rw [List.flatMap_cons, List.append_assoc]
    simp only [hexByte, List.cons_append, List.nil_append, readHex]
    rw [hexValue_hexDigit _ (by omega), hexValue_hexDigit _ (by omega), ih]
    dsimp only
    rw [show 16 * (x.toNat / 16) + x.toNat % 16 =
      x.toNat by omega, BitVec.ofNat_toNat, BitVec.setWidth_eq]

/-- A text whose lines are ended is taken apart into them. -/
theorem lines_flatMap {ls : List (List Char)} (h : ∀ s ∈ ls, '\n' ∉ s) :
    lines (ls.flatMap (· ++ ['\n'])) = ls := by
  have hsplit : (ls.flatMap (· ++ ['\n'])).splitOn '\n' = ls ++ [[]] := by
    induction ls with
    | nil => rfl
    | cons s ls ih =>
      rw [List.flatMap_cons, List.append_assoc, List.singleton_append,
        List.splitOn_append_cons_self_of_not_mem (h s List.mem_cons_self),
        ih fun t ht => h t (List.mem_cons_of_mem s ht)]
      rfl
  rw [lines, hsplit, List.dropLast_concat]

theorem printable_ne_newline (b : Byte) : printable b ≠ '\n' := by
  have hall : ∀ n : Fin 256, printable (BitVec.ofFin n) ≠ '\n' := by
    decide +kernel
  exact hall b.toFin

/-- A line has no end of line inside. -/
theorem newline_not_mem_line {row : Row} {l : List Byte} (h : row.ascii = l.map printable) :
    '\n' ∉ row.line := by
  intro hmem
  simp only [Row.line, List.rightpad, List.mem_append, List.mem_flatMap, List.mem_replicate, h,
    List.mem_map] at hmem
  obtain ((⟨b, -, hb⟩ | ⟨-, hblank⟩) | hblank) | ⟨b, -, hb⟩ := hmem
  · have hlt := b.isLt
    simp only [hexByte, List.mem_cons, List.not_mem_nil, or_false] at hb
    obtain hb | hb | hb := hb
    · exact hexDigit_ne_newline _ (by omega) hb.symm
    · exact hexDigit_ne_newline _ (by omega) hb.symm
    · exact absurd hb (by decide)
  · exact absurd hblank (by decide)
  · exact absurd hblank (by decide)
  · exact printable_ne_newline b hb

/-- **A hex dump of some bytes**: its lines, the columns of each of them, and what can be read
back. -/
structure Lossless (l : List Byte) (text : List Char) : Prop where
  ended : text = (lines text).flatMap (· ++ ['\n'])
  count : (lines text).length = (l.length + 15) / 16
  hex : ∀ (r : Nat) (s : List Char), (lines text)[r]? = some s →
    s.take 48 = ((lineBytes l r).flatMap hexByte).rightpad 48 ' '
  gap : ∀ (r : Nat) (s : List Char), (lines text)[r]? = some s → (s.drop 48).take 2 = [' ', ' ']
  ascii : ∀ (r : Nat) (s : List Char), (lines text)[r]? = some s →
    s.drop 50 = (lineBytes l r).map printable
  readBack : (lines text).flatMap (fun s => readHex (s.take 48)) = l

/-- The hex columns of a line take 48 characters. -/
theorem length_hexPart {b : List Byte} (h : b.length ≤ 16) :
    ((b.flatMap hexByte).rightpad 48 ' ').length = 48 := by
  rw [List.rightpad, List.length_append, length_hexColumns, List.length_replicate]
  omega

theorem take_line {row : Row} (h : row.hex.length ≤ 16) :
    row.line.take 48 = (row.hex.flatMap hexByte).rightpad 48 ' ' := by
  rw [Row.line, List.append_assoc, List.take_left' (length_hexPart h)]

theorem drop_line {row : Row} (h : row.hex.length ≤ 16) : row.line.drop 48 = [' ', ' '] ++
    row.ascii := by
  rw [Row.line, List.append_assoc, List.drop_left' (length_hexPart h)]

/-- The lines of a dump, with their bytes. -/
theorem getElem?_hexRows {l : List Byte} {r : Nat} {row : Row} (h : (hexRows l)[r]? = some row) :
    row.hex = lineBytes l r ∧ row.ascii = (lineBytes l r).map printable := by
  rw [hexRows, List.getElem?_map, Option.map_eq_some_iff] at h
  obtain ⟨r', hr', rfl⟩ := h
  obtain ⟨hlt, rfl⟩ := List.getElem?_eq_some_iff.mp hr'
  rw [List.getElem_range]
  exact ⟨rfl, rfl⟩

theorem length_hex {l : List Byte} {row : Row} (h : row ∈ hexRows l) : row.hex.length ≤ 16 := by
  obtain ⟨r, hr⟩ := List.mem_iff_getElem?.mp h
  rw [(getElem?_hexRows hr).1, lineBytes, List.length_take]
  exact Nat.min_le_left _ _

/-- The text of the lines of some bytes is a dump of them. -/
theorem lossless_hexRows (l : List Byte) :
    Lossless l ((hexRows l).flatMap fun row => row.line ++ ['\n']) := by
  have hflat : ((hexRows l).flatMap fun row => row.line ++ ['\n']) =
      ((hexRows l).map Row.line).flatMap (· ++ ['\n']) := by
    rw [List.flatMap_map]
  have hlines : lines ((hexRows l).flatMap fun row => row.line ++
    ['\n']) = (hexRows l).map Row.line := by
    rw [hflat]
    apply lines_flatMap
    intro s hs
    obtain ⟨row, hrow, rfl⟩ := List.mem_map.mp hs
    obtain ⟨r, hr⟩ := List.mem_iff_getElem?.mp hrow
    exact newline_not_mem_line (getElem?_hexRows hr).2
  have hline : ∀ r s, (lines ((hexRows l).flatMap fun row => row.line ++ ['\n']))[r]? = some s →
      ∃ row ∈ hexRows l, s = row.line ∧ row.hex = lineBytes l r ∧
      row.ascii = (lineBytes l r).map printable := by
    intro r s hs
    rw [hlines, List.getElem?_map, Option.map_eq_some_iff] at hs
    obtain ⟨row, hrow, rfl⟩ := hs
    exact ⟨row, List.mem_of_getElem? hrow, rfl, getElem?_hexRows hrow⟩
  refine ⟨by rw [hlines, hflat], ?_, ?_, ?_, ?_, ?_⟩
  · rw [hlines, List.length_map, hexRows, List.length_map, List.length_range]
  · intro r s hs
    obtain ⟨row, hrow, rfl, hhex, -⟩ := hline r s hs
    rw [take_line (length_hex hrow), hhex]
  · intro r s hs
    obtain ⟨row, hrow, rfl, -, -⟩ := hline r s hs
    rw [drop_line (length_hex hrow)]
    rfl
  · intro r s hs
    obtain ⟨row, hrow, rfl, -, hascii⟩ := hline r s hs
    rw [← hascii, show 50 = 48 + 2 from rfl, ← List.drop_drop, drop_line (length_hex hrow)]
    rfl
  · rw [hlines, List.flatMap_map]
    conv_rhs => rw [← hexRows_bytes l]
    apply List.flatMap_congr
    intro row hrow
    rw [take_line (length_hex hrow), List.rightpad, readHex_columns]

/-- **The hex dump is lossless and aligned**: of any number of bytes, wherever they are in the
memory. -/
theorem hex_dump_lossless (m : Nat → Byte) (p len : Nat) :
    Lossless (cells m p len) ((printHexDump p len).value m) := by
  rw [value_printHexDump]
  exact lossless_hexRows _

end Dump

end CShark
