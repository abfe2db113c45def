import OsnMp2.User.Shell
import Mathlib.Computability.Language
import Mathlib.Tactic.Common

/-!
# `grep`

The matcher of `grep.c` and the loop that cuts its input into lines. The pattern and the text are
strings without a NUL, which stands behind them.

The meaning of a pattern is a language: the characters of the pattern are languages of one-character
strings, `*` is the star of a language, and what is not anchored may stand between any two strings.

`read` may return less than it is asked for. The buffer holds 1023 characters of the line that is
looked at; a line that does not fit, or one with a NUL, is where the output ends.

## Main definitions

* `matchhere`, `matchstar`, `matchRe`: the matcher
* `Pattern.language`: the meaning of a pattern
* `scan`, `grep`: the lines of the buffer, and the loop
* `completeLines`: the lines of the input

## Main results

* `match_iff`: the matcher decides the language of the pattern
* `grep_output`: what is written does not depend on how the input is read
-/

namespace Xv6.Grep

/-! ## The matcher -/

/-- `matchstar(c, re, text)`, where `here` is `matchhere(re, _)`. -/
def matchstar (c : Char) (here : List Char → Bool) : List Char → Bool
  | [] => here []
  -- The shortest repetition first.
  | d :: text => here (d :: text) || ((d = c || c = '.') && matchstar c here text)

/-- `matchhere(re, text)`. -/
def matchhere : List Char → List Char → Bool
  | [], _ => true
  | [c], text =>
    -- A `$` stands for the end only at the end of the pattern.
    if c = '$' then text.isEmpty
    else
      match text with
      | [] => false
      | d :: _ => c = '.' || c = d
  | c :: d :: re, text =>
    -- This test comes before the one on the character itself.
    if d = '*' then matchstar c (matchhere re) text
    else
      match text with
      | [] => false
      | e :: text => (c = '.' || c = e) && matchhere (d :: re) text

/-- The loop of `match(re, text)`. -/
def matchAny (re : List Char) : List Char → Bool
  -- Also the empty text is tried.
  | [] => matchhere re []
  | d :: text => matchhere re (d :: text) || matchAny re text

/-- `match(re, text)`. -/
def matchRe : List Char → List Char → Bool
  | [], text => matchAny [] text
  -- A `^` stands for the start only at the start of the pattern.
  | c :: re, text => if c = '^' then matchhere re text else matchAny (c :: re) text

/-! ## The meaning of a pattern -/

/-- A character of a pattern, or one with a star. -/
inductive Item
  | one (c : Char)
  | star (c : Char)

/-- A pattern: what it consists of, and whether it is anchored at the end. -/
abbrev Here := List Item × Bool

/-- The parts of a pattern without `^`. -/
def parseHere : List Char → Here
  | [] => ([], false)
  | [c] => if c = '$' then ([], true) else ([.one c], false)
  | c :: d :: re =>
    -- The star belongs to the character before it, even if this is a star.
    if d = '*' then (.star c :: (parseHere re).1, (parseHere re).2)
    else (.one c :: (parseHere (d :: re)).1, (parseHere (d :: re)).2)

/-- The strings of one character that a character of a pattern stands for. -/
def atom (c : Char) : Language Char := {x | ∃ d, x = [d] ∧ (c = '.' ∨ c = d)}

def Item.language : Item → Language Char
  | .one c => atom c
  | .star c => KStar.kstar (atom c)

/-- What the parts stand for, and whatever follows. -/
def Here.language (p : Here) : Language Char := (p.1.map Item.language).prod * if p.2 then 1 else ⊤

/-- **The meaning of a pattern**. -/
def Pattern.language : List Char → Language Char
  | [] => ⊤ * Here.language (parseHere [])
  | c :: re => if c = '^' then Here.language (parseHere re)
      else ⊤ * Here.language (parseHere (c :: re))

theorem mem_top (x : List Char) : x ∈ (⊤ : Language Char) := Set.mem_univ x

theorem mem_atom_mul {c : Char} {x : List Char} {l : Language Char} :
    x ∈ atom c * l ↔ ∃ d y, x = d :: y ∧ (c = '.' ∨ c = d) ∧ y ∈ l := by
  rw [Language.mem_mul]
  constructor
  · rintro ⟨-, ⟨d, rfl, hd⟩, y, hy, rfl⟩
    exact ⟨d, y, rfl, hd, hy⟩
  · rintro ⟨d, y, rfl, hd, hy⟩
    exact ⟨[d], ⟨d, rfl, hd⟩, y, hy, rfl⟩

/-- A star, and what follows: it stands for nothing, or for one character and a star. -/
theorem mem_star_mul {c : Char} {x : List Char} {l : Language Char} :
    x ∈ KStar.kstar (atom c) * l ↔ x ∈ l ∨ ∃ d y, x = d :: y ∧ (c = '.' ∨ c = d) ∧
    y ∈ KStar.kstar (atom c) * l := by
  rw [← mem_atom_mul, ← Language.mem_add, ← mul_assoc]
  conv_lhs => rw [← Language.one_add_self_mul_kstar_eq_kstar, add_mul, one_mul]

/-- The loop of `matchstar`. -/
theorem matchstar_iff {c : Char} {here : List Char → Bool} {l : Language Char}
    (hhere : ∀ x, here x = true ↔ x ∈ l)
    (text : List Char) : matchstar c here text = true ↔ text ∈ KStar.kstar (atom c) * l := by
  induction text with
  | nil =>
    rw [matchstar, mem_star_mul, hhere]
    simp
  | cons d text ih =>
    rw [matchstar, mem_star_mul, Bool.or_eq_true, hhere, Bool.and_eq_true, ih]
    simp only [List.cons.injEq, Bool.or_eq_true, decide_eq_true_eq]
    refine or_congr_right ⟨fun ⟨hd, h⟩ => ⟨d, text, ⟨rfl, rfl⟩, ?_, h⟩, ?_⟩
    · exact hd.symm.imp_right Eq.symm
    · rintro ⟨d', y, ⟨rfl, rfl⟩, hd, h⟩
      exact ⟨hd.symm.imp_left Eq.symm, h⟩

theorem matchhere_star (c : Char) (re text : List Char) :
    matchhere (c :: '*' :: re) text = matchstar c (matchhere re) text := by
  cases text <;> simp [matchhere]

theorem matchhere_iff : ∀ re text : List Char, matchhere re text = true ↔
    text ∈ Here.language (parseHere re)
  | [], text => by simp [matchhere, parseHere, Here.language, mem_top]
  | [c], text => by
    by_cases hc : c = '$'
    · simp [matchhere, parseHere, Here.language, hc]
    · have hlang : Here.language (parseHere [c]) = atom c * ⊤ := by
        simp [parseHere, Here.language, Item.language, hc]
      rw [hlang, mem_atom_mul]
      cases text with
      | nil => simp [matchhere, hc]
      | cons d text => simp [matchhere, hc, mem_top]
  | c :: d :: re, text => by
    by_cases hd : d = '*'
    · have hlang : Here.language (parseHere (c :: d :: re)) =
          KStar.kstar (atom c) * Here.language (parseHere re) := by
        simp [parseHere, Here.language, Item.language, hd, mul_assoc]
      rw [hlang, hd, matchhere_star, matchstar_iff (matchhere_iff re)]
    · have hlang : Here.language (parseHere (c :: d :: re)) = atom c * Here.language (parseHere
        (d :: re)) := by
        simp [parseHere, Here.language, Item.language, hd, mul_assoc]
      rw [hlang, mem_atom_mul]
      cases text with
      | nil => simp [matchhere, hd]
      | cons e text => simp [matchhere, hd, matchhere_iff (d :: re) text]

theorem matchAny_iff (re text : List Char) :
    matchAny re text = true ↔ text ∈ ⊤ * Here.language (parseHere re) := by
  rw [Language.mem_mul]
  induction text with
  | nil =>
    rw [matchAny, matchhere_iff]
    simp [mem_top]
  | cons d text ih =>
    rw [matchAny, Bool.or_eq_true, matchhere_iff, ih]
    constructor
    · rintro (h | ⟨a, -, b, hb, rfl⟩)
      · exact ⟨[], mem_top _, _, h, rfl⟩
      · exact ⟨d :: a, mem_top _, b, hb, rfl⟩
    · rintro ⟨a, -, b, hb, hab⟩
      cases a with
      | nil => exact .inl (hab ▸ hb)
      | cons e a =>
        obtain ⟨rfl, rfl⟩ := List.cons.inj hab
        exact .inr ⟨a, mem_top _, b, hb, rfl⟩

/-- **The matcher decides the language of the pattern**. -/
theorem match_iff (re text : List Char) : matchRe re text = true ↔ text ∈ Pattern.language re := by
  cases re with
  | nil => exact matchAny_iff [] text
  | cons c re =>
    rw [matchRe, Pattern.language]
    by_cases hc : c = '^'
    · rw [if_pos hc, if_pos hc, matchhere_iff]
    · rw [if_neg hc, if_neg hc, matchAny_iff]

/-! ## The loop -/

/-- `sizeof(buf)`. -/
def bufSize : Nat := 1024

/-- The inner loop of `grep`, from the pointer `p` on: what is written, and what is left at `p`;
`n` bounds the rounds. -/
def scan (pattern : List Char) : Nat → List Char → List Char × List Char
  | 0, p => ([], p)
  | n + 1, p =>
    if '\n' ∈ Sh.cstr p then
      let line := p.takeWhile (· ≠ '\n')
      let r := scan pattern n (p.dropWhile (· ≠ '\n')).tail
      ((if matchRe pattern line then line ++ ['\n'] else []) ++ r.1, r.2)
    else ([], p)

/-- How many of the `length` characters that are left the `i`-th `read(fd, _, n)` returns:
at least one if it can. -/
def readLength (sizes : Nat → Nat) (i n length : Nat) : Nat := min (min n length) (sizes i + 1)

/-- The loop of `grep(pattern, fd)` from the `i`-th `read` on, with `buf` in the buffer and `rest`
in the file: what is written; `n` bounds the rounds. -/
def grepLoop (pattern : List Char) (sizes : Nat → Nat) : Nat → Nat → List Char →
    List Char → List Char
  | 0, _, _, _ => []
  | n + 1, i, buf, rest =>
    let k := readLength sizes i (bufSize - buf.length - 1) rest.length
    if k = 0 then []
    else
      let r := scan pattern bufSize (buf ++ rest.take k)
      r.1 ++ grepLoop pattern sizes n (i + 1) r.2 (rest.drop k)

/-- `grep(pattern, fd)` on a file with the contents `input`. -/
def grep (pattern : List Char) (sizes : Nat → Nat) (input : List Char) : List Char :=
  grepLoop pattern sizes (input.length + 1) 0 [] input

/-- What stands between the newlines. -/
def pieces : List Char → List (List Char)
  | [] => [[]]
  | c :: s =>
    if c = '\n' then [] :: pieces s
    else
      match pieces s with
      | [] => [[c]]
      | l :: ls => (c :: l) :: ls

/-- The lines that end with a newline. -/
def completeLines (s : List Char) : List (List Char) := (pieces s).dropLast

/-- The line fits into the buffer, and `strchr` gets to its end. -/
def Fits (line : List Char) : Prop := line.length + 1 < bufSize ∧ '\x00' ∉ line

instance : DecidablePred Fits := fun line =>
    inferInstanceAs (Decidable (line.length + 1 < bufSize ∧ '\x00' ∉ line))

/-- **What `grep` is to write**: the lines of the pattern, as long as the lines fit. -/
def output (pattern : List Char) (s : List Char) : List Char :=
  (((completeLines s).takeWhile fun l => decide (Fits l)).filter (matchRe pattern)).flatMap
    (· ++ ['\n'])

theorem pieces_ne_nil (s : List Char) : pieces s ≠ [] := by
  cases s with
  | nil => exact nofun
  | cons c s =>
    rw [pieces]
    split
    · exact nofun
    · split <;> exact nofun

theorem pieces_line {l : List Char} (hl : '\n' ∉ l) (s : List Char) :
    pieces (l ++ '\n' :: s) = l :: pieces s := by
  induction l with
  | nil => simp [pieces]
  | cons c l ih =>
    have hc : c ≠ '\n' := fun h => hl (by simp [h])
    rw [List.cons_append, pieces, if_neg hc, ih fun h => hl (by simp [h])]

theorem pieces_last {l : List Char} (hl : '\n' ∉ l) : pieces l = [l] := by
  induction l with
  | nil => rfl
  | cons c l ih =>
    have hc : c ≠ '\n' := fun h => hl (by simp [h])
    rw [pieces, if_neg hc, ih fun h => hl (by simp [h])]

theorem output_line {pattern l : List Char} (hl : '\n' ∉ l) (s : List Char) :
    output pattern (l ++ '\n' :: s) =
      if Fits l then (if matchRe pattern l then l ++ ['\n'] else []) ++ output pattern s
        else [] := by
  have hlines : completeLines (l ++ '\n' :: s) = l :: completeLines s := by
    rw [completeLines, pieces_line hl, List.dropLast_cons_of_ne_nil (pieces_ne_nil s),
      completeLines]
  rw [output, hlines]
  by_cases hfits : Fits l
  · rw [if_pos hfits, List.takeWhile_cons_of_pos (by simpa using hfits)]
    by_cases hmatch : matchRe pattern l = true
    · rw [List.filter_cons_of_pos hmatch, List.flatMap_cons, if_pos hmatch]
      rfl
    · rw [List.filter_cons_of_neg hmatch, if_neg hmatch]
      rfl
  · rw [if_neg hfits, List.takeWhile_cons_of_neg (by simpa using hfits)]
    rfl

theorem output_last {pattern l : List Char} (hl : '\n' ∉ l) : output pattern l = [] := by
  rw [output, completeLines, pieces_last hl]
  rfl

/-- The first newline. -/
theorem exists_line {s : List Char} (h : '\n' ∈ s) : ∃ l r, s = l ++ '\n' :: r ∧ '\n' ∉ l ∧
    s.takeWhile (· ≠ '\n') = l ∧ (s.dropWhile (· ≠ '\n')).tail = r := by
  obtain ⟨l, r, rfl, hl⟩ := List.eq_append_cons_of_mem h
  have hall : ∀ c ∈ l, decide (c ≠ '\n') = true := fun c hc => decide_eq_true fun h => hl (h ▸ hc)
  refine ⟨l, r, rfl, hl, ?_, ?_⟩
  · rw [List.takeWhile_append_of_pos hall]
    simp
  · rw [List.dropWhile_append_of_pos hall]
    simp

theorem mem_cstr {c : Char} {s : List Char} (h : c ∈ Sh.cstr s) : c ∈ s := List.takeWhile_subset _ h

/-- A newline that `strchr` finds: no NUL stands in front of it. -/
theorem nul_of_newline {l r : List Char} (hl : '\n' ∉ l) : '\n' ∈ Sh.cstr (l ++ '\n' :: r) ↔
    '\x00' ∉ l := by
  induction l with
  | nil => simp [Sh.cstr]
  | cons c l ih =>
    have hne : c ≠ '\n' := fun h => hl (by simp [h])
    have hrest := ih fun h => hl (by simp [h])
    by_cases hc : c = '\x00'
    · simp [Sh.cstr, hc]
    · unfold Sh.cstr at hrest ⊢
      rw [List.cons_append, List.takeWhile_cons_of_pos (by simpa using hc), List.mem_cons,
        List.mem_cons, hrest]
      simp [hne.symm, Ne.symm hc]

/-- Where no newline is found in what is in the buffer, nothing more is written once the buffer is
full or the file is at its end. -/
theorem output_stuck {pattern buf rest : List Char} (hscan : '\n' ∉ Sh.cstr buf)
    (hfull : rest = [] ∨ bufSize ≤ buf.length + 1) : output pattern (buf ++ rest) = [] := by
  by_cases hnew : '\n' ∈ buf ++ rest
  · obtain ⟨l, r, hs, hl, -, -⟩ := exists_line hnew
    rw [hs, output_line hl, if_neg]
    rintro ⟨hshort, hnul⟩
    -- the newline stands in the buffer, and no NUL in front of it
    have hlength : l.length < buf.length := by
      rcases hfull with rfl | hfull
      · rw [List.append_nil] at hs
        rw [hs]
        simp
      · omega
    have hbuf : buf = l ++ '\n' :: (buf.drop (l.length + 1)) := by
      have htake : buf.take (l.length + 1) = l ++ ['\n'] := by
        have hle : (buf ++ rest).take (l.length + 1) = (l ++ '\n' :: r).take (l.length + 1) := by
          rw [hs]
        rw [List.take_append_of_le_length (by omega)] at hle
        rw [hle, List.take_append, List.take_of_length_le (by omega), Nat.add_sub_cancel_left]
        rfl
      conv_lhs => rw [← List.take_append_drop (l.length + 1) buf, htake]
      simp
    exact hscan (hbuf ▸ (nul_of_newline hl).mpr hnul)
  · exact output_last hnew

/-- The lines in the buffer. -/
theorem scan_output (pattern : List Char) {n : Nat} {p : List Char} (hn : p.length < n)
    (hp : p.length < bufSize) (rest : List Char) :
    output pattern (p ++ rest) = (scan pattern n p).1 ++ output pattern
    ((scan pattern n p).2 ++ rest) ∧
      '\n' ∉ Sh.cstr (scan pattern n p).2 ∧ (scan pattern n p).2.length ≤ p.length := by
  induction n generalizing p with
  | zero => exact absurd hn (Nat.not_lt_zero _)
  | succ n ih =>
    rw [scan]
    by_cases hnew : '\n' ∈ Sh.cstr p
    · obtain ⟨l, r, rfl, hl, htake, htail⟩ := exists_line (mem_cstr hnew)
      simp only [if_pos hnew, htake, htail]
      have hlength : (l ++ '\n' :: r).length = l.length + (r.length + 1) := List.length_append
      have hfits : Fits l := ⟨by omega, (nul_of_newline hl).mp hnew⟩
      obtain ⟨hout, hleft, hshort⟩ := ih (p := r) (by omega) (by omega)
      refine ⟨?_, hleft, by omega⟩
      rw [List.append_assoc, List.cons_append, output_line hl, if_pos hfits, hout,
        List.append_assoc]
    · rw [if_neg hnew]
      exact ⟨rfl, hnew, Nat.le_refl _⟩

theorem grepLoop_output (pattern : List Char) (sizes : Nat → Nat) {n i : Nat} {buf rest : List Char}
    (hn : rest.length < n) (hbuf : buf.length < bufSize) (hscan : '\n' ∉ Sh.cstr buf) :
    grepLoop pattern sizes n i buf rest = output pattern (buf ++ rest) := by
  induction n generalizing i buf rest with
  | zero => exact absurd hn (Nat.not_lt_zero _)
  | succ n ih =>
    rw [grepLoop]
    by_cases hk : readLength sizes i (bufSize - buf.length - 1) rest.length = 0
    · rw [if_pos hk, output_stuck hscan]
      unfold readLength at hk
      by_cases hrest : rest.length = 0
      · exact .inl (List.length_eq_zero_iff.mp hrest)
      · exact .inr (by omega)
    · rw [if_neg hk]
      generalize hread : readLength sizes i (bufSize - buf.length - 1) rest.length = k at hk
      have hkn : k ≤ bufSize - buf.length - 1 ∧ k ≤ rest.length := by
        unfold readLength at hread
        omega
      have htake : (buf ++ rest.take k).length = buf.length + k := by
        rw [List.length_append, List.length_take, Nat.min_eq_left hkn.2]
      obtain ⟨hout, hleft, hshort⟩ := scan_output pattern (n := bufSize) (p := buf ++ rest.take k)
        (by omega) (by omega) (rest.drop k)
      have hdrop : (rest.drop k).length < n := by
        rw [List.length_drop]
        omega
      show (scan pattern bufSize (buf ++ rest.take k)).1 ++ grepLoop pattern sizes n (i + 1) _ _ = _
      rw [ih hdrop (by omega) hleft, ← hout, List.append_assoc, List.take_append_drop]

/-- **The output of `grep`** is the lines of its input that match the pattern, up to the first one
that does not fit into the buffer or has a NUL, however the input is read. -/
theorem grep_output (pattern : List Char) (sizes : Nat → Nat) (input : List Char) :
    grep pattern sizes input = output pattern input :=
  grepLoop_output pattern sizes (Nat.lt_succ_self _) (by decide) (by decide)

end Xv6.Grep
