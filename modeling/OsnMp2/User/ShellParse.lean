import OsnMp2.User.Shell
import Mathlib.Tactic.Common

/-!
# The shell's parser and its grammar

The parser of the shell accepts the lines whose tokens derive from a grammar, and gives the command
that they derive, with the words that stand in the line: although the words are cut out of the line
only at the end, by the NULs of `nulterminate`, no NUL cuts another word short.

## Main definitions

* `lex`: the tokens of a line
* `Derives`: the grammar
* `Word.At`: where a word stands in a line

## Main results

* `gettoken_cases`: what `gettoken` finds is the next token
* `sound`: what is parsed is derived
* `complete`: what is derived is parsed
* `returns`: the bound on the depth of the calls is never reached
* `parsecmd_iff`: the results of `parsecmd` are the derived commands
-/

namespace Xv6.Sh

/-! ## The grammar -/

inductive Token
  | word (text : List Char)
  | sym (c : Char)
  /-- `>>` -/
  | append
deriving DecidableEq

/-- The tokens of a line whose first character belongs to a word; the other ones are `ts`. -/
def consWord (c : Char) (joined : Bool) : List Token → List Token
  | .word w :: ts => if joined then .word (c :: w) :: ts else .word [c] :: .word w :: ts
  | ts => .word [c] :: ts

/-- The tokens of a line. -/
def lex : List Char → List Token
  | [] => []
  | c :: s =>
    if c ∈ whitespace then lex s
    else if c ∈ symbols then
      match s with
      | [] => [.sym c]
      | d :: r => if c = '>' ∧ d = '>' then .append :: lex r else .sym c :: lex (d :: r)
    else consWord c (s.head?.any wordChar) (lex s)

/-- `<`, `>` and `>>`. -/
inductive Redir
  | input
  | output
  | append

def Redir.token : Redir → Token
  | .input => .sym '<'
  | .output => .sym '>'
  | .append => .append

def Redir.mode : Redir → Nat
  | .input => oRdonly
  | .output => oWronly ||| oCreate ||| oTrunc
  | .append => oWronly ||| oCreate

def Redir.fd : Redir → Nat
  | .input => 0
  | .output => 1
  | .append => 1

/-- A redirection and its file. -/
structure Redirection where
  kind : Redir
  file : List Char

def Redirection.tokens (r : Redirection) : List Token := [r.kind.token, .word r.file]

def Redirection.apply (cmd : Cmd (List Char)) (r : Redirection) : Cmd (List Char) :=
  .redir cmd r.file r.kind.mode r.kind.fd

/-- A part of a simple command. -/
inductive Item
  | arg (text : List Char)
  | redir (r : Redirection)

def Item.tokens : Item → List Token
  | .arg text => [.word text]
  | .redir r => r.tokens

def Item.apply (cmd : Cmd (List Char)) : Item → Cmd (List Char)
  | .arg text => cmd.addArg text
  | .redir r => r.apply cmd

/-- The number of the arguments. -/
def argCount : List Item → Nat
  | [] => 0
  | .arg _ :: items => argCount items + 1
  | .redir _ :: items => argCount items

/-- The levels of the grammar. -/
inductive Level
  | line
  | pipe
  | exec

/-- The command in the background, `k` times. -/
def backs (cmd : Cmd (List Char)) : Nat → Cmd (List Char)
  | 0 => cmd
  | k + 1 => .back (backs cmd k)

/-- **The grammar**: the tokens of a part of a line, and its command. -/
inductive Derives : Level → List Token → Cmd (List Char) → Prop
  | simple (items : List Item) (hargs : argCount items < maxargs) :
      Derives .exec (items.flatMap Item.tokens) (items.foldl Item.apply (.exec []))
  | block {ts : List Token} {c : Cmd (List Char)} (line : Derives .line ts c)
      (rs : List Redirection) :
      Derives .exec (.sym '(' :: (ts ++ .sym ')' :: rs.flatMap Redirection.tokens))
      (rs.foldl Redirection.apply c)
  | last {ts : List Token} {c : Cmd (List Char)} (exec : Derives .exec ts c) : Derives .pipe ts c
  | pipe {ts us : List Token} {c d : Cmd (List Char)} (exec : Derives .exec ts c)
      (rest : Derives .pipe us d) : Derives .pipe (ts ++ .sym '|' :: us) (.pipe c d)
  | done {ts : List Token} {c : Cmd (List Char)} (pipe : Derives .pipe ts c) (k : Nat) :
      Derives .line (ts ++ List.replicate k (.sym '&')) (backs c k)
  | list {ts us : List Token} {c d : Cmd (List Char)} (pipe : Derives .pipe ts c) (k : Nat)
      (rest : Derives .line us d) :
      Derives .line (ts ++ List.replicate k (.sym '&') ++ .sym ';' :: us) (.list (backs c k) d)

/-! ## Tokens -/

theorem skip_suffix (s : List Char) : skip s <:+ s := List.dropWhile_suffix _

theorem skip_cons {c : Char} {r s : List Char} (h : skip s = c :: r) : c ∉ whitespace := by
  have hhead := List.head?_dropWhile_not (fun c => decide (c ∈ whitespace)) s
  have hc : (s.dropWhile fun c => decide (c ∈ whitespace)).head? = some c := congrArg List.head? h
  rw [hc] at hhead
  simpa using hhead

theorem lex_blank {c : Char} {s : List Char} (hc : c ∈ whitespace) : lex (c :: s) = lex s := by
  cases s <;> simp [lex, hc]

theorem lex_append (r : List Char) : lex ('>' :: '>' :: r) = .append :: lex r := by
  simp [lex, whitespace, symbols]

theorem lex_sym {c : Char} {s : List Char} (hblank : c ∉ whitespace) (hsym : c ∈ symbols)
    (hs : c = '>' → s.head? ≠ some '>') : lex (c :: s) = .sym c :: lex s := by
  cases s with
  | nil => simp [lex, hblank, hsym]
  | cons d r =>
    have hcd : ¬ (c = '>' ∧ d = '>') := fun h => hs h.1 (by rw [h.2]; rfl)
    simp [lex, hblank, hsym, hcd]

theorem lex_char {c : Char} {s : List Char} (hblank : c ∉ whitespace) (hsym : c ∉ symbols) :
    lex (c :: s) = consWord c (s.head?.any wordChar) (lex s) := by
  cases s <;> simp [lex, hblank, hsym]

theorem lex_skip (s : List Char) : lex (skip s) = lex s := by
  induction s with
  | nil => rfl
  | cons c s ih =>
    by_cases hc : c ∈ whitespace
    · have hskip : skip (c :: s) = skip s := List.dropWhile_cons_of_pos (by simpa using hc)
      rw [hskip, ih, lex_blank hc]
    · rw [skip, List.dropWhile_cons_of_neg (by simpa using hc)]

theorem wordChar_iff {c : Char} : wordChar c = true ↔ c ∉ whitespace ∧ c ∉ symbols := by
  simp [wordChar]

/-- A word and what follows. -/
theorem lex_word {text r : List Char} (hne : text ≠ []) (hin : ∀ c ∈ text, wordChar c = true)
    (hout : r.head?.any wordChar = false) : lex (text ++ r) = .word text :: lex r := by
  induction text with
  | nil => exact absurd rfl hne
  | cons c text ih =>
    obtain ⟨hblank, hsym⟩ := wordChar_iff.mp (hin c (by simp))
    rw [List.cons_append, lex_char hblank hsym]
    cases text with
    | nil =>
      rw [List.nil_append, hout]
      cases hr : lex r with
      | nil => rfl
      | cons t ts => cases t <;> rfl
    | cons d text =>
      have hd : ((d :: text ++ r).head?.any wordChar) = true := by
        simpa using hin d (by simp)
      rw [ih (by simp) fun c hc => hin c (by simp [hc]), hd]
      rfl

/-- What `gettoken` finds: the end of the line, a symbol, `>>`, or a word. -/
theorem gettoken_cases (s : List Char) :
    (lex s = [] ∧ gettoken s = ('\x00', ⟨[], []⟩, [])) ∨
    (∃ c r, skip s = c :: r ∧ c ∈ symbols ∧ lex s = .sym c :: lex r ∧
      gettoken s = (c, ⟨skip s, r⟩, skip r)) ∨
    (∃ r, skip s = '>' :: '>' :: r ∧ lex s = .append :: lex r ∧
      gettoken s = ('+', ⟨skip s, r⟩, skip r)) ∨
    (∃ text r, skip s = text ++ r ∧ text ≠ [] ∧ (∀ c ∈ text, wordChar c = true) ∧
      r.head?.any wordChar = false ∧ lex s = .word text :: lex r ∧
      gettoken s = ('a', ⟨skip s, r⟩, skip r)) := by
  rw [← lex_skip s]
  unfold gettoken
  cases hs : skip s with
  | nil => exact .inl ⟨rfl, rfl⟩
  | cons c r =>
    have hblank := skip_cons hs
    by_cases hsym : c ∈ symbols
    · by_cases hgt : c = '>'
      · subst hgt
        by_cases hd : r.head? = some '>'
        · obtain ⟨r', rfl⟩ : ∃ r', r = '>' :: r' := List.head?_eq_some_iff.mp hd
          exact .inr (.inr (.inl ⟨r', rfl, lex_append r', rfl⟩))
        · refine .inr (.inl ⟨'>', r, rfl, hsym, lex_sym hblank hsym fun _ => hd, ?_⟩)
          cases r with
          | nil => rfl
          | cons d r =>
            have hne : d ≠ '>' := fun h => hd (by rw [h]; rfl)
            simp [deref, hne]
      · refine .inr (.inl ⟨c, r, rfl, hsym, lex_sym hblank hsym fun h => absurd h hgt, ?_⟩)
        have hcase : c = '|' ∨ c = '(' ∨ c = ')' ∨ c = ';' ∨ c = '&' ∨ c = '<' := by
          simp only [symbols, List.mem_cons, List.not_mem_nil, or_false] at hsym
          tauto
        simp [hcase]
    · have hc : wordChar c = true := wordChar_iff.mpr ⟨hblank, hsym⟩
      have hsplit := List.takeWhile_append_dropWhile (p := wordChar) (l := c :: r)
      have hne : (c :: r).takeWhile wordChar ≠ [] := by simp [hc]
      have hin : ∀ d ∈ (c :: r).takeWhile wordChar, wordChar d = true :=
        List.all_eq_true.mp List.all_takeWhile
      have hout : ((c :: r).dropWhile wordChar).head?.any wordChar = false := by
        have hall := List.head?_dropWhile_not wordChar (c :: r)
        cases hd : ((c :: r).dropWhile wordChar).head? with
        | none => rfl
        | some d => simpa [hd] using hall
      refine .inr (.inr (.inr ⟨_, _, hsplit.symm, hne, hin, hout, ?_, ?_⟩))
      · rw [← lex_word hne hin hout, hsplit]
      · have h1 : ¬ (c = '|' ∨ c = '(' ∨ c = ')' ∨ c = ';' ∨ c = '&' ∨ c = '<') := by
          simp only [symbols, List.mem_cons, List.not_mem_nil, or_false] at hsym
          tauto
        have h2 : c ≠ '>' := by
          rintro rfl
          exact hsym (by decide)
        simp [h1, h2]

/-- Where a word stands: a maximal run of characters of a line. -/
structure Word.At (line : List Char) (w : Word) (text : List Char) : Prop where
  suffix : w.q <:+ line
  split : w.q = text ++ w.eq
  inside : ∀ c ∈ text, wordChar c = true
  outside : w.eq.head?.any wordChar = false

theorem Word.At.text_eq {line text : List Char} {w : Word} (h : w.At line text) :
    w.text = text := by
  unfold Word.text
  rw [h.split, List.length_append, Nat.add_sub_cancel, List.take_left]

theorem gettoken_suffix (s : List Char) : (gettoken s).2.2 <:+ s := by
  rcases gettoken_cases s with ⟨-, h⟩ | ⟨c, r, hs, -, -, h⟩ | ⟨r, hs, -, h⟩ | ⟨text, r, hs,
    -, -, -, -, h⟩
  · rw [h]
    exact List.nil_suffix
  · rw [h]
    exact ((skip_suffix r).trans ⟨[c], hs.symm⟩).trans (skip_suffix s)
  · rw [h]
    exact ((skip_suffix r).trans ⟨['>', '>'], hs.symm⟩).trans (skip_suffix s)
  · rw [h]
    exact ((skip_suffix r).trans ⟨text, hs.symm⟩).trans (skip_suffix s)

/-- What `gettoken` returns. -/
def Token.ret : Token → Char
  | .word _ => 'a'
  | .sym c => c
  | .append => '+'

theorem gettoken_nil {s : List Char} (h : lex s = []) : (gettoken s).1 = '\x00' ∧
    (gettoken s).2.2 = [] := by
  rcases gettoken_cases s with ⟨-, hg⟩ | ⟨c, r, -, -, hl, -⟩ | ⟨r, -, hl, -⟩ | ⟨text, r, -,
    -, -, -, hl, -⟩
  · rw [hg]
    exact ⟨rfl, rfl⟩
  all_goals cases h.symm.trans hl

theorem gettoken_cons {s : List Char} {t : Token} {ts : List Token} (h : lex s = t :: ts) :
    (gettoken s).1 = t.ret ∧ lex (gettoken s).2.2 = ts ∧ (gettoken s).2.2.length < s.length ∧
      ∀ text, t = .word text → (gettoken s).2.1.At s text := by
  have hlength := (skip_suffix s).length_le
  rcases gettoken_cases s with ⟨hl, -⟩ | ⟨c, r, hs, -, hl, hg⟩ | ⟨r, hs, hl, hg⟩ | ⟨text, r, hs,
    hne, hin, hout, hl, hg⟩
  · cases h.symm.trans hl
  · cases h.symm.trans hl
    have hr := (skip_suffix r).length_le
    rw [hs, List.length_cons] at hlength
    rw [hg]
    exact ⟨rfl, lex_skip r, by dsimp only; omega, nofun⟩
  · cases h.symm.trans hl
    have hr := (skip_suffix r).length_le
    rw [hs, List.length_cons, List.length_cons] at hlength
    rw [hg]
    exact ⟨rfl, lex_skip r, by dsimp only; omega, nofun⟩
  · cases h.symm.trans hl
    have hr := (skip_suffix r).length_le
    have hpos := List.length_pos_iff.mpr hne
    rw [hs, List.length_append] at hlength
    rw [hg]
    refine ⟨rfl, lex_skip r, by dsimp only; omega, fun text' heq => ?_⟩
    cases heq
    exact ⟨skip_suffix s, hs, hin, hout⟩

/-- The tokens start with one of the symbols `toks`. -/
def starts (toks : List Char) : List Token → Bool
  | .sym c :: _ => c ∈ toks
  | .append :: _ => '>' ∈ toks
  | _ => false

theorem peek_fst {s toks : List Char} (htoks : toks ⊆ symbols) :
    (peek s toks).1 = starts toks (lex s) := by
  have hnul : '\x00' ∉ toks := fun h => absurd (htoks h) (by decide)
  unfold peek
  rcases gettoken_cases s with ⟨hl, hg⟩ | ⟨c, r, hs, hc, hl, -⟩ | ⟨r, hs, hl, -⟩ | ⟨text, r, hs,
    hne, hin, -, hl, -⟩
  · have hs : skip s = [] := congrArg (fun g : Char × Word × List Char => g.2.1.q) hg
    simp [hs, hl, deref, starts]
  · have hcnul : c ≠ '\x00' := fun h => absurd (h ▸ hc) (by decide)
    simp [hs, hl, deref, starts, hcnul]
  · simp [hs, hl, deref, starts]
  · cases text with
    | nil => exact absurd rfl hne
    | cons c text =>
      have hc := (wordChar_iff.mp (hin c (by simp))).2
      have hctoks : c ∉ toks := fun h => hc (htoks h)
      simp [hs, hl, deref, starts, hctoks]

theorem lex_peek (s toks : List Char) : lex (peek s toks).2 = lex s := lex_skip s

theorem peek_suffix (s toks : List Char) : (peek s toks).2 <:+ s := skip_suffix s

/-! ## What is parsed is derived -/

theorem Word.At.mono {line s text : List Char} {w : Word} (h : w.At s text) (hs : s <:+ line) :
    w.At line text where
  suffix := h.suffix.trans hs
  split := h.split
  inside := h.inside
  outside := h.outside

theorem gettoken_word {s : List Char} (h : (gettoken s).1 = 'a') :
    ∃ text ts, lex s = .word text :: ts := by
  rcases gettoken_cases s with ⟨-, hg⟩ | ⟨c, r, -, hc, -, hg⟩ | ⟨r, -, -, hg⟩ | ⟨text, r, -,
    -, -, -, hl, -⟩
  · rw [hg] at h
    exact absurd h (by decide)
  · rw [hg] at h
    exact absurd (h ▸ hc : 'a' ∈ symbols) (by decide)
  · rw [hg] at h
    exact absurd h (show '+' ≠ 'a' by decide)
  · exact ⟨text, _, hl⟩

theorem gettoken_end {s : List Char} (h : (gettoken s).1 = '\x00') : lex s = [] := by
  rcases gettoken_cases s with ⟨hl, -⟩ | ⟨c, r, -, hc, -, hg⟩ | ⟨r, -, -, hg⟩ | ⟨text, r, -,
    -, -, -, -, hg⟩
  · exact hl
  · rw [hg] at h
    exact absurd (h ▸ hc : '\x00' ∈ symbols) (by decide)
  · rw [hg] at h
    exact absurd h (show '+' ≠ '\x00' by decide)
  · rw [hg] at h
    exact absurd h (show 'a' ≠ '\x00' by decide)

theorem starts_redir {ts : List Token} (h : starts ['<', '>'] ts = true) :
    ∃ (k : Redir) (us : List Token), ts = k.token :: us := by
  match ts, h with
  | .sym c :: us, h =>
    have hc : c = '<' ∨ c = '>' := by simpa [starts] using h
    rcases hc with rfl | rfl
    · exact ⟨.input, us, rfl⟩
    · exact ⟨.output, us, rfl⟩
  | .append :: us, _ => exact ⟨.append, us, rfl⟩

theorem starts_one {c : Char} {ts : List Token} (hc : c ≠ '>') (h : starts [c] ts = true) :
    ∃ us : List Token, ts = .sym c :: us := by
  match ts, h with
  | .sym d :: us, h =>
    have hd : d = c := by simpa [starts] using h
    exact ⟨us, by rw [hd]⟩
  | .append :: us, h => exact absurd (by simpa [starts] using h) hc.symm

theorem redirect_eq (cmd : Cmd Word) (k : Redir) (file : Word) :
    redirect cmd k.token.ret file = .redir cmd file k.mode k.fd := by
  cases k <;> rfl

/-- The redirections that `parseredirs` finds. -/
theorem parseredirs_sound {n : Nat} {cmd : Cmd Word} {s : List Char} {r : Cmd Word × List Char}
    (h : parseredirs n cmd s = .ok r) :
    ∃ rs : List Redirection, lex s = rs.flatMap Redirection.tokens ++ lex r.2 ∧
      r.1.map Word.text = rs.foldl Redirection.apply (cmd.map Word.text) ∧ r.2 <:+ s ∧
      ∀ w ∈ r.1.words, w ∈ cmd.words ∨ ∃ text, w.At s text := by
  induction n generalizing cmd s with
  | zero => cases h
  | succ n ih =>
    rw [parseredirs] at h
    by_cases hp : (peek s ['<', '>']).1 = true
    · rw [if_pos hp] at h
      rw [peek_fst (by decide), ← lex_peek s ['<', '>']] at hp
      obtain ⟨k, us, hus⟩ := starts_redir hp
      obtain ⟨hret, hlex, -, -⟩ := gettoken_cons hus
      by_cases hf : (gettoken (gettoken (peek s ['<', '>']).2).2.2).1 = 'a'
      · rw [if_neg (not_not.mpr hf)] at h
        obtain ⟨text, vs, hvs⟩ := gettoken_word hf
        obtain ⟨-, hrest, -, hat⟩ := gettoken_cons hvs
        rw [hret, redirect_eq] at h
        obtain ⟨rs, htokens, hmap, hsuffix, hwords⟩ := ih h
        have hs := (gettoken_suffix _).trans (peek_suffix s ['<', '>'])
        have hs' := (gettoken_suffix _).trans hs
        refine ⟨⟨k, text⟩ :: rs, ?_, ?_, hsuffix.trans hs', fun w hw => ?_⟩
        · rw [← lex_peek s ['<', '>'], hus, ← hlex, hvs, ← hrest, htokens]
          rfl
        · rw [hmap, List.foldl_cons]
          congr 1
          exact congrArg (fun file => Cmd.redir (cmd.map Word.text) file k.mode k.fd)
            (hat text rfl).text_eq
        · rcases hwords w hw with hw | ⟨text', hw⟩
          · rcases List.mem_append.mp hw with hw | hw
            · exact .inl hw
            · rw [List.mem_singleton.mp hw]
              exact .inr ⟨text, (hat text rfl).mono hs⟩
          · exact .inr ⟨text', hw.mono hs'⟩
      · rw [if_pos hf] at h
        cases h
    · rw [if_neg hp] at h
      cases h
      exact ⟨[], (lex_peek s ['<', '>']).symm, rfl, peek_suffix s ['<', '>'], fun w hw => .inl hw⟩

theorem map_addArg (cmd : Cmd Word) (w : Word) :
    (cmd.addArg w).map Word.text = (cmd.map Word.text).addArg w.text := by
  induction cmd with
  | exec argv => simp [Cmd.addArg, Cmd.map]
  | redir cmd file mode fd ih => rw [Cmd.addArg, Cmd.map, ih, Cmd.map, Cmd.addArg]
  | _ => rfl

theorem mem_words_addArg {cmd : Cmd Word} {w x : Word} (h : x ∈ (cmd.addArg w).words) :
    x ∈ cmd.words ∨ x = w := by
  induction cmd with
  | exec argv =>
    rcases List.mem_append.mp h with h | h
    · exact .inl h
    · exact .inr (List.mem_singleton.mp h)
  | redir cmd file mode fd ih =>
    rcases List.mem_append.mp h with h | h
    · exact (ih h).imp_left fun h => List.mem_append_left _ h
    · exact .inl (List.mem_append_right _ h)
  | _ => exact .inl h

theorem flatMap_redirs (rs : List Redirection) :
    (rs.map Item.redir).flatMap Item.tokens = rs.flatMap Redirection.tokens := by
  rw [List.flatMap_map]
  rfl

theorem foldl_redirs (rs : List Redirection) (c : Cmd (List Char)) :
    (rs.map Item.redir).foldl Item.apply c = rs.foldl Redirection.apply c := by
  rw [List.foldl_map]
  rfl

theorem argCount_redirs (rs : List Redirection) (items : List Item) :
    argCount (rs.map Item.redir ++ items) = argCount items := by
  induction rs with
  | nil => rfl
  | cons r rs ih => exact ih

theorem bind_ok {α β : Type} {x : Except Panic α} {f : α → Except Panic β} {b : β}
    (h : x.bind f = .ok b) : ∃ a, x = .ok a ∧ f a = .ok b := by
  cases x with
  | error e => cases h
  | ok a => exact ⟨a, rfl, h⟩

/-- The arguments and redirections that the loop of `parseexec` finds. -/
theorem parseargs_sound {n : Nat} {cmd : Cmd Word} {argc : Nat} {s : List Char}
    {r : Cmd Word × List Char} (hargc : argc < maxargs) (h : parseargs n cmd argc s = .ok r) :
    ∃ items : List Item, lex s = items.flatMap Item.tokens ++ lex r.2 ∧
    argc + argCount items < maxargs ∧
      r.1.map Word.text = items.foldl Item.apply (cmd.map Word.text) ∧ r.2 <:+ s ∧
      ∀ w ∈ r.1.words, w ∈ cmd.words ∨ ∃ text, w.At s text := by
  -- On the fuel, with one argument and the redirections behind it in each round.
  induction n generalizing cmd argc s with
  | zero => cases h
  | succ n ih =>
    rw [parseargs] at h
    by_cases hp : (peek s ['|', ')', '&', ';']).1 = true
    · rw [if_pos hp] at h
      cases h
      exact ⟨[], (lex_peek s ['|', ')', '&', ';']).symm, hargc, rfl,
        peek_suffix s ['|', ')', '&', ';'], fun w hw => .inl hw⟩
    · rw [if_neg hp] at h
      have hs := (gettoken_suffix _).trans (peek_suffix s ['|', ')', '&', ';'])
      by_cases hend : (gettoken (peek s ['|', ')', '&', ';']).2).1 = '\x00'
      · rw [if_pos hend] at h
        cases h
        have hl := gettoken_end hend
        refine ⟨[], ?_, hargc, rfl, hs, fun w hw => .inl hw⟩
        rw [← lex_peek s ['|', ')', '&', ';'], hl, (gettoken_nil hl).2]
        rfl
      · rw [if_neg hend] at h
        by_cases hword : (gettoken (peek s ['|', ')', '&', ';']).2).1 = 'a'
        · rw [if_neg (not_not.mpr hword)] at h
          -- one argument too many is the panic
          by_cases hmany : maxargs ≤ argc + 1
          · rw [if_pos hmany] at h
            cases h
          · rw [if_neg hmany] at h
            obtain ⟨r', hr', h⟩ := bind_ok h
            obtain ⟨text, ts, hts⟩ := gettoken_word hword
            obtain ⟨-, hrest, -, hat⟩ := gettoken_cons hts
            obtain ⟨rs, htokens, hmap, hsuffix, hwords⟩ := parseredirs_sound hr'
            obtain ⟨items, htokens', hcount, hmap', hsuffix', hwords'⟩ := ih (by omega) h
            have hsuffix'' := hsuffix'.trans (hsuffix.trans hs)
            refine ⟨.arg text :: (rs.map .redir ++ items), ?_, ?_, ?_, hsuffix'', fun w hw => ?_⟩
            · rw [← lex_peek s ['|', ')', '&', ';'], hts, ← hrest, htokens, htokens',
                List.flatMap_cons, List.flatMap_append, flatMap_redirs]
              simp [Item.tokens]
            · have hcons : argCount (.arg text :: (rs.map .redir ++ items)) = argCount items + 1 :=
                congrArg (· + 1) (argCount_redirs rs items)
              omega
            · rw [hmap', hmap, map_addArg, (hat text rfl).text_eq, List.foldl_cons,
                List.foldl_append, foldl_redirs]
              rfl
            · rcases hwords' w hw with hw | ⟨text', hw⟩
              · rcases hwords w hw with hw | ⟨text', hw⟩
                · rcases mem_words_addArg hw with hw | rfl
                  · exact .inl hw
                  · exact .inr ⟨text, (hat text rfl).mono (peek_suffix s ['|', ')', '&', ';'])⟩
                · exact .inr ⟨text', hw.mono hs⟩
              · exact .inr ⟨text', hw.mono (hsuffix.trans hs)⟩
        · rw [if_pos hword] at h
          cases h

/-- The text `s` starts with a part of the grammar, and `r` is its command and what follows. -/
structure Parsed (k : Level) (s : List Char) (r : Cmd Word × List Char) : Prop where
  suffix : r.2 <:+ s
  words : ∀ w ∈ r.1.words, ∃ text, w.At s text
  derives : ∃ ts, lex s = ts ++ lex r.2 ∧ Derives k ts (r.1.map Word.text)

theorem parsebacks_sound {n : Nat} {cmd : Cmd Word} {s : List Char} {r : Cmd Word × List Char}
    (h : parsebacks n cmd s = .ok r) : ∃ k, lex s = List.replicate k (.sym '&') ++ lex r.2 ∧
      (∀ c : Cmd (List Char), ∀ j, cmd.map Word.text = backs c j →
       r.1.map Word.text = backs c (k + j)) ∧
      r.2 <:+ s ∧ r.1.words = cmd.words := by
  induction n generalizing cmd s with
  | zero => cases h
  | succ n ih =>
    rw [parsebacks] at h
    by_cases hp : (peek s ['&']).1 = true
    · rw [if_pos hp] at h
      rw [peek_fst (by decide), ← lex_peek s ['&']] at hp
      obtain ⟨us, hus⟩ := starts_one (by decide) hp
      obtain ⟨-, hrest, -, -⟩ := gettoken_cons hus
      obtain ⟨k, htokens, hmap, hsuffix, hwords⟩ := ih h
      have hs := (gettoken_suffix _).trans (peek_suffix s ['&'])
      refine ⟨k + 1, ?_, fun c j hj => ?_, hsuffix.trans hs, hwords⟩
      · rw [← lex_peek s ['&'], hus, ← hrest, htokens]
        rfl
      · rw [hmap c (j + 1) (congrArg Cmd.back hj), Nat.add_right_comm, Nat.add_assoc]
    · rw [if_neg hp] at h
      cases h
      exact ⟨0, (lex_peek s ['&']).symm,
        fun c j hj => by rw [Nat.zero_add]; exact hj, peek_suffix s ['&'], rfl⟩

/-- A symbol that has been seen and taken. -/
theorem taken {c : Char} {s : List Char} (hsym : c ∈ symbols) (hgt : c ≠ '>')
    (hp : (peek s [c]).1 = true) :
    lex s = .sym c :: lex (gettoken (peek s [c]).2).2.2 ∧ (gettoken (peek s [c]).2).2.2 <:+ s ∧
      (gettoken (peek s [c]).2).2.2.length < s.length := by
  have htoks : [c] ⊆ symbols := by simpa using hsym
  rw [peek_fst htoks, ← lex_peek s [c]] at hp
  obtain ⟨us, hus⟩ := starts_one hgt hp
  obtain ⟨-, hrest, hlength, -⟩ := gettoken_cons hus
  refine ⟨?_, (gettoken_suffix _).trans (peek_suffix s [c]), Nat.lt_of_lt_of_le hlength
    (peek_suffix s [c]).length_le⟩
  rw [hrest, ← lex_peek s [c], hus]

/-- **What is parsed is derived.** -/
theorem sound (n : Nat) : ∀ s r, (parseline n s = .ok r → Parsed .line s r) ∧
    (parsepipe n s = .ok r → Parsed .pipe s r) ∧ (parseblock n s = .ok r → Parsed .exec s r) ∧
    (parseexec n s = .ok r → Parsed .exec s r) := by
  -- On the fuel: each of the four functions calls another one, or itself, with less of it. Each
  -- bullet takes the tree that the calls derive and puts the rule of its own level on top.
  induction n with
  | zero => exact fun s r => ⟨nofun, nofun, nofun, nofun⟩
  | succ n ih =>
    refine fun s r => ⟨fun h => ?_, fun h => ?_, fun h => ?_, fun h => ?_⟩
    · rw [parseline] at h
      obtain ⟨r₁, hr₁, h⟩ := bind_ok h
      obtain ⟨r₂, hr₂, h⟩ := bind_ok h
      obtain ⟨hs₁, hw₁, ts, hts, hd₁⟩ := (ih s r₁).2.1 hr₁
      obtain ⟨k, hk, hmap, hs₂, hw₂⟩ := parsebacks_sound hr₂
      -- The `&` behind the pipeline are read one by one, each wraps the command once more.
      have hbacks : r₂.1.map Word.text = backs (r₁.1.map Word.text) k := hmap _ 0 rfl
      have htokens : lex s = ts ++ List.replicate k (.sym '&') ++ lex r₂.2 := by
        rw [hts, hk, List.append_assoc]
      by_cases hp : (peek r₂.2 [';']).1 = true
      · rw [if_pos hp] at h
        obtain ⟨r₃, hr₃, h⟩ := bind_ok h
        cases h
        obtain ⟨hsemi, hs, -⟩ := taken (by decide) (by decide) hp
        obtain ⟨hs₃, hw₃, us, hus, hd₃⟩ := (ih _ r₃).1 hr₃
        have hs' := hs.trans (hs₂.trans hs₁)
        refine ⟨hs₃.trans hs', fun w hw => ?_, ts ++ List.replicate k (.sym '&') ++
          .sym ';' :: us, ?_, ?_⟩
        · rcases List.mem_append.mp hw with hw | hw
          · exact hw₁ w (hw₂ ▸ hw)
          · exact (hw₃ w hw).imp fun text hat => hat.mono hs'
        · rw [htokens, hsemi, hus]
          simp
        · have hlist := Derives.list hd₁ k hd₃
          rw [← hbacks] at hlist
          exact hlist
      · rw [if_neg hp] at h
        cases h
        refine ⟨(peek_suffix r₂.2 [';']).trans (hs₂.trans hs₁), fun w hw => hw₁ w (hw₂ ▸ hw),
          ts ++ List.replicate k (.sym '&'), by rw [lex_peek]; exact htokens, ?_⟩
        have hdone := Derives.done hd₁ k
        rw [← hbacks] at hdone
        exact hdone
    · rw [parsepipe] at h
      obtain ⟨r₁, hr₁, h⟩ := bind_ok h
      obtain ⟨hs₁, hw₁, ts, hts, hd₁⟩ := (ih s r₁).2.2.2 hr₁
      by_cases hp : (peek r₁.2 ['|']).1 = true
      · rw [if_pos hp] at h
        obtain ⟨r₂, hr₂, h⟩ := bind_ok h
        cases h
        obtain ⟨hbar, hs, -⟩ := taken (by decide) (by decide) hp
        obtain ⟨hs₂, hw₂, us, hus, hd₂⟩ := (ih _ r₂).2.1 hr₂
        have hs' := hs.trans hs₁
        refine ⟨hs₂.trans hs', fun w hw => ?_, ts ++ .sym '|' :: us, ?_, Derives.pipe hd₁ hd₂⟩
        · rcases List.mem_append.mp hw with hw | hw
          · exact hw₁ w hw
          · exact (hw₂ w hw).imp fun text hat => hat.mono hs'
        · rw [hts, hbar, hus]
          simp
      · rw [if_neg hp] at h
        cases h
        exact ⟨(peek_suffix r₁.2 ['|']).trans hs₁, hw₁, ts, by rw [lex_peek]; exact hts, .last hd₁⟩
    -- A block without its brackets is the panic, which no accepted line reaches.
    · rw [parseblock] at h
      by_cases hp : (peek s ['(']).1 = true
      · rw [if_pos hp] at h
        obtain ⟨r₁, hr₁, h⟩ := bind_ok h
        obtain ⟨hopen, hs, -⟩ := taken (by decide) (by decide) hp
        obtain ⟨hs₁, hw₁, ts, hts, hd₁⟩ := (ih _ r₁).1 hr₁
        by_cases hq : (peek r₁.2 [')']).1 = true
        · rw [if_pos hq] at h
          obtain ⟨hclose, hs₂, -⟩ := taken (by decide) (by decide) hq
          obtain ⟨rs, hrs, hmap, hs₃, hw₃⟩ := parseredirs_sound h
          have hs' := hs₂.trans (hs₁.trans hs)
          refine ⟨hs₃.trans hs', fun w hw => ?_,
            .sym '(' :: (ts ++ .sym ')' :: rs.flatMap Redirection.tokens), ?_, ?_⟩
          · rcases hw₃ w hw with hw | ⟨text, hat⟩
            · exact (hw₁ w hw).imp fun text hat => hat.mono hs
            · exact ⟨text, hat.mono hs'⟩
          · rw [hopen, hts, hclose, hrs]
            simp
          · rw [hmap]
            exact Derives.block hd₁ rs
        · rw [if_neg hq] at h
          cases h
      · rw [if_neg hp] at h
        cases h
    · rw [parseexec] at h
      by_cases hp : (peek s ['(']).1 = true
      · rw [if_pos hp] at h
        obtain ⟨hs₁, hw₁, ts, hts, hd₁⟩ := (ih _ r).2.2.1 h
        have hs := peek_suffix s ['(']
        exact ⟨hs₁.trans hs, fun w hw => (hw₁ w hw).imp fun text hat => hat.mono hs, ts,
          (lex_peek s ['(']).symm.trans hts, hd₁⟩
      · rw [if_neg hp] at h
        obtain ⟨r₁, hr₁, h⟩ := bind_ok h
        -- The redirections before the first argument are read by a call of their own.
        obtain ⟨rs, hrs, hmap, hs₁, hw₁⟩ := parseredirs_sound hr₁
        obtain ⟨items, hitems, hcount, hmap', hs₂, hw₂⟩ := parseargs_sound (by decide) h
        have hs := peek_suffix s ['(']
        refine ⟨hs₂.trans (hs₁.trans hs), fun w hw => ?_, (rs.map Item.redir ++ items).flatMap
          Item.tokens, ?_, ?_⟩
        · rcases hw₂ w hw with hw | ⟨text, hat⟩
          · rcases hw₁ w hw with hw | ⟨text, hat⟩
            · cases hw
            · exact ⟨text, hat.mono hs⟩
          · exact ⟨text, hat.mono (hs₁.trans hs)⟩
        · rw [← lex_peek s ['('], hrs, hitems, List.flatMap_append, flatMap_redirs,
            List.append_assoc]
        · have hsimple := Derives.simple (rs.map Item.redir ++ items)
            (by rw [argCount_redirs]; omega)
          rw [List.foldl_append, foldl_redirs] at hsimple
          rw [hmap', hmap]
          exact hsimple

/-! ## The depth of the calls -/

theorem bind_ne_depth {α β : Type} {x : Except Panic α} {f : α → Except Panic β}
    (hx : x ≠ .error .depth)
    (hf : ∀ a, x = .ok a → f a ≠ .error .depth) : x.bind f ≠ .error .depth := by
  cases x with
  | error e => exact fun h => hx (congrArg Except.error (Except.error.inj h))
  | ok a => exact hf a rfl

theorem parseredirs_returns {n : Nat} {cmd : Cmd Word} {s : List Char} (hn : s.length < n) :
    parseredirs n cmd s ≠ .error .depth := by
  induction n generalizing cmd s with
  | zero => exact absurd hn (Nat.not_lt_zero _)
  | succ n ih =>
    rw [parseredirs]
    by_cases hp : (peek s ['<', '>']).1 = true
    · rw [if_pos hp]
      rw [peek_fst (by decide), ← lex_peek s ['<', '>']] at hp
      obtain ⟨k, us, hus⟩ := starts_redir hp
      obtain ⟨-, -, hlength, -⟩ := gettoken_cons hus
      have hfile := (gettoken_suffix (gettoken (peek s ['<', '>']).2).2.2).length_le
      have hs := (peek_suffix s ['<', '>']).length_le
      by_cases hf : (gettoken (gettoken (peek s ['<', '>']).2).2.2).1 = 'a'
      · rw [if_neg (not_not.mpr hf)]
        exact ih (by omega)
      · rw [if_pos hf]
        exact nofun
    · rw [if_neg hp]
      exact nofun

theorem parseargs_returns {n : Nat} {cmd : Cmd Word} {argc : Nat} {s : List Char}
    (hn : s.length < n) : parseargs n cmd argc s ≠ .error .depth := by
  induction n generalizing cmd argc s with
  | zero => exact absurd hn (Nat.not_lt_zero _)
  | succ n ih =>
    rw [parseargs]
    by_cases hp : (peek s ['|', ')', '&', ';']).1 = true
    · rw [if_pos hp]
      exact nofun
    rw [if_neg hp]
    by_cases hend : (gettoken (peek s ['|', ')', '&', ';']).2).1 = '\x00'
    · rw [if_pos hend]
      exact nofun
    rw [if_neg hend]
    by_cases hword : (gettoken (peek s ['|', ')', '&', ';']).2).1 = 'a'
    · rw [if_neg (not_not.mpr hword)]
      obtain ⟨text, ts, hts⟩ := gettoken_word hword
      obtain ⟨-, -, hlength, -⟩ := gettoken_cons hts
      have hs := (peek_suffix s ['|', ')', '&', ';']).length_le
      by_cases hmany : maxargs ≤ argc + 1
      · rw [if_pos hmany]
        exact nofun
      · rw [if_neg hmany]
        refine bind_ne_depth (parseredirs_returns (by omega)) fun r hr => ih ?_
        obtain ⟨-, -, -, hsuffix, -⟩ := parseredirs_sound hr
        have hs' := hsuffix.length_le
        omega
    · rw [if_pos hword]
      exact nofun

theorem parsebacks_returns {n : Nat} {cmd : Cmd Word} {s : List Char} (hn : s.length < n) :
    parsebacks n cmd s ≠ .error .depth := by
  induction n generalizing cmd s with
  | zero => exact absurd hn (Nat.not_lt_zero _)
  | succ n ih =>
    rw [parsebacks]
    by_cases hp : (peek s ['&']).1 = true
    · rw [if_pos hp]
      have hlength := (taken (by decide) (by decide) hp).2.2
      exact ih (by omega)
    · rw [if_neg hp]
      exact nofun

/-- **The bound on the depth of the calls is not reached.** -/
theorem returns (n : Nat) :
    ∀ s : List Char, (4 * s.length + 4 ≤ n → parseline n s ≠ .error .depth) ∧
    (4 * s.length + 3 ≤ n → parsepipe n s ≠ .error .depth) ∧
    (4 * s.length + 1 ≤ n → parseblock n s ≠ .error .depth) ∧
    (4 * s.length + 2 ≤ n → parseexec n s ≠ .error .depth) := by
  induction n with
  | zero => exact fun s => ⟨nofun, nofun, nofun, nofun⟩
  | succ n ih =>
    refine fun s => ⟨fun hn => ?_, fun hn => ?_, fun hn => ?_, fun hn => ?_⟩
    · rw [parseline]
      refine bind_ne_depth ((ih s).2.1 (by omega)) fun r₁ hr₁ => ?_
      have hs₁ := ((sound n s r₁).2.1 hr₁).suffix.length_le
      refine bind_ne_depth (parsebacks_returns (by omega)) fun r₂ hr₂ => ?_
      obtain ⟨-, -, -, hs₂, -⟩ := parsebacks_sound hr₂
      have hs₂ := hs₂.length_le
      by_cases hp : (peek r₂.2 [';']).1 = true
      · rw [if_pos hp]
        have hlength := (taken (by decide) (by decide) hp).2.2
        exact bind_ne_depth ((ih _).1 (by omega)) fun r₃ _ => nofun
      · rw [if_neg hp]
        exact nofun
    · rw [parsepipe]
      refine bind_ne_depth ((ih s).2.2.2 (by omega)) fun r₁ hr₁ => ?_
      have hs₁ := ((sound n s r₁).2.2.2 hr₁).suffix.length_le
      by_cases hp : (peek r₁.2 ['|']).1 = true
      · rw [if_pos hp]
        have hlength := (taken (by decide) (by decide) hp).2.2
        exact bind_ne_depth ((ih _).2.1 (by omega)) fun r₃ _ => nofun
      · rw [if_neg hp]
        exact nofun
    · rw [parseblock]
      by_cases hp : (peek s ['(']).1 = true
      · rw [if_pos hp]
        have hlength := (taken (by decide) (by decide) hp).2.2
        refine bind_ne_depth ((ih _).1 (by omega)) fun r₁ hr₁ => ?_
        have hs₁ := ((sound n _ r₁).1 hr₁).suffix.length_le
        by_cases hq : (peek r₁.2 [')']).1 = true
        · rw [if_pos hq]
          have hlength := (taken (by decide) (by decide) hq).2.2
          exact parseredirs_returns (by omega)
        · rw [if_neg hq]
          exact nofun
      · rw [if_neg hp]
        exact nofun
    · rw [parseexec]
      have hs := (peek_suffix s ['(']).length_le
      by_cases hp : (peek s ['(']).1 = true
      · rw [if_pos hp]
        exact (ih _).2.2.1 (by omega)
      · rw [if_neg hp]
        refine bind_ne_depth (parseredirs_returns (by omega)) fun r hr => parseargs_returns ?_
        obtain ⟨-, -, -, hsuffix, -⟩ := parseredirs_sound hr
        have hs' := hsuffix.length_le
        omega

/-! ## What is derived is parsed -/

/-- The symbols that may follow a part of a line. -/
def Level.stops : Level → List Char
  | .line => [')']
  | .pipe => [')', '&', ';']
  | .exec => [')', '&', ';', '|']

/-- A part of a line ends here. -/
def Level.Ends (k : Level) (rest : List Token) : Prop := ∀ t ∈ rest.head?, ∃ c ∈ k.stops, t = .sym c

theorem Level.Ends.nil (k : Level) : k.Ends [] := nofun

theorem Level.Ends.cons {k : Level} {c : Char} (hc : c ∈ k.stops) (rest : List Token) :
    k.Ends (.sym c :: rest) :=
  fun _ ht => ⟨c, hc, (Option.some.inj ht).symm⟩

theorem Level.Ends.mono {k l : Level} {rest : List Token} (h : k.Ends rest)
    (hkl : k.stops ⊆ l.stops) :
    l.Ends rest :=
  fun t ht => (h t ht).imp fun _ hc => ⟨hkl hc.1, hc.2⟩

theorem Level.Ends.starts {k : Level} {rest : List Token} {toks : List Char} (h : k.Ends rest)
    (htoks : ∀ c ∈ k.stops, c ∉ toks) : starts toks rest = false := by
  cases rest with
  | nil => rfl
  | cons t rest =>
    obtain ⟨c, hc, rfl⟩ := h t rfl
    simpa [Sh.starts] using htoks c hc

theorem peek_false {s toks : List Char} (htoks : toks ⊆ symbols) (h : starts toks (lex s) = false) :
    ¬ (peek s toks).1 = true := by
  rw [peek_fst htoks, h]
  exact nofun

theorem peek_true {s toks : List Char} (htoks : toks ⊆ symbols) (h : starts toks (lex s) = true) :
    (peek s toks).1 = true :=
  (peek_fst htoks).trans h

theorem parseredirs_stop {n : Nat} {cmd : Cmd Word} {s : List Char}
    (h : starts ['<', '>'] (lex s) = false) :
    parseredirs (n + 1) cmd s = .ok (cmd, (peek s ['<', '>']).2) := by
  rw [parseredirs, if_neg (peek_false (by decide) h)]

/-- One redirection. -/
theorem parseredirs_step {s : List Char} {r : Redirection} {us : List Token}
    (h : lex s = r.tokens ++ us) :
    ∃ file s', file.text = r.file ∧ lex s' = us ∧ s'.length < s.length ∧ ∀ n cmd,
      parseredirs (n + 1) cmd s = parseredirs n (.redir cmd file r.kind.mode r.kind.fd) s' := by
  have hstart : starts ['<', '>'] (lex s) = true := by
    rw [h]
    cases hk : r.kind <;> simp [Redirection.tokens, hk, Redir.token, starts]
  rw [← lex_peek s ['<', '>']] at h
  obtain ⟨hret, hlex, hlength, -⟩ := gettoken_cons h
  obtain ⟨hfile, hrest, -, hat⟩ := gettoken_cons hlex
  have hword : (gettoken (gettoken (peek s ['<', '>']).2).2.2).1 = 'a' := hfile
  have hs := (peek_suffix s ['<', '>']).length_le
  have hs' := (gettoken_suffix (gettoken (peek s ['<', '>']).2).2.2).length_le
  refine ⟨_, _, (hat _ rfl).text_eq, hrest, by omega, fun n cmd => ?_⟩
  rw [parseredirs, if_pos (peek_true (by decide) hstart)]
  simp only [hword, hret, redirect_eq, ne_eq, not_true_eq_false, if_false]

theorem parseredirs_complete {rs : List Redirection} {n : Nat} (cmd : Cmd Word) {s : List Char}
    {rest : List Token}
    (hn : s.length < n) (h : lex s = rs.flatMap Redirection.tokens ++ rest)
    (hrest : starts ['<', '>'] rest = false) :
    ∃ r, parseredirs n cmd s = .ok r ∧
    r.1.map Word.text = rs.foldl Redirection.apply (cmd.map Word.text) ∧
      lex r.2 = rest := by
  induction rs generalizing n cmd s with
  | nil =>
    obtain ⟨n, rfl⟩ := Nat.exists_eq_add_of_lt hn
    exact ⟨_, parseredirs_stop (h ▸ hrest), rfl, (lex_peek s ['<', '>']).trans h⟩
  | cons r rs ih =>
    rw [List.flatMap_cons, List.append_assoc] at h
    obtain ⟨file, s', htext, hlex, hlength, hstep⟩ := parseredirs_step h
    obtain ⟨n, rfl⟩ := Nat.exists_eq_add_of_lt hn
    obtain ⟨r', hr', hmap, hend⟩ := ih (n := s.length + n) (.redir cmd file r.kind.mode r.kind.fd)
      (by omega) hlex
    refine ⟨r', (hstep _ cmd).trans hr', ?_, hend⟩
    rw [hmap, Cmd.map, htext]
    rfl

/-- The arguments and redirections of a simple command. -/
theorem parseargs_complete {items : List Item} {m n argc : Nat} (cmd : Cmd Word) {s : List Char}
    {rest : List Token}
    (hm : s.length < m) (hn : s.length < n) (h : lex s = items.flatMap Item.tokens ++ rest)
    (hrest : Level.Ends .exec rest) (hargc : argc + argCount items < maxargs) :
    ∃ r, ((parseredirs m cmd s).bind fun r => parseargs n r.1 argc r.2) = .ok r ∧
      r.1.map Word.text = items.foldl Item.apply (cmd.map Word.text) ∧ lex r.2 = rest := by
  -- On the items: a redirection uses up fuel of `parseredirs`, an argument one round of
  -- `parseargs`.
  induction items generalizing m n argc cmd s with
  -- What follows the command is the end of the line or a symbol at which the loop stops.
  | nil =>
    obtain ⟨m, rfl⟩ := Nat.exists_eq_add_of_lt hm
    obtain ⟨n, rfl⟩ := Nat.exists_eq_add_of_lt hn
    have hlex : lex s = rest := h
    have hs : lex (peek s ['<', '>']).2 = rest := (lex_peek s _).trans hlex
    rw [parseredirs_stop (hlex ▸ hrest.starts (by simp [Level.stops]))]
    show ∃ r, parseargs (s.length + n + 1) cmd argc (peek s ['<', '>']).2 = .ok r ∧ _
    generalize (peek s ['<', '>']).2 = s' at hs
    rw [parseargs]
    cases rest with
    | nil =>
      have hpeek : lex (peek s' ['|', ')', '&', ';']).2 = [] := (lex_peek s' _).trans hs
      rw [if_neg (peek_false (by decide) (by rw [hs]; rfl)), if_pos (gettoken_nil hpeek).1]
      refine ⟨_, rfl, rfl, ?_⟩
      rw [(gettoken_nil hpeek).2]
      rfl
    | cons t ts =>
      obtain ⟨c, hc, rfl⟩ := hrest t rfl
      have hstart : starts ['|', ')', '&', ';'] (lex s') = true := by
        simp only [Level.stops, List.mem_cons, List.not_mem_nil, or_false] at hc
        rw [hs]
        rcases hc with rfl | rfl | rfl | rfl <;> rfl
      rw [if_pos (peek_true (by decide) hstart)]
      exact ⟨_, rfl, rfl, (lex_peek s' ['|', ')', '&', ';']).trans hs⟩
  | cons item items ih =>
    rw [List.flatMap_cons, List.append_assoc] at h
    cases item with
    | redir r =>
      obtain ⟨file, s', htext, hlex, hlength, hstep⟩ := parseredirs_step h
      obtain ⟨m, rfl⟩ := Nat.exists_eq_add_of_lt hm
      rw [hstep]
      obtain ⟨r', hr', hmap, hend⟩ := ih (m := s.length + m) (n := n)
        (.redir cmd file r.kind.mode r.kind.fd) (by omega) (by omega) hlex hargc
      refine ⟨r', hr', ?_, hend⟩
      rw [hmap, Cmd.map, htext]
      rfl
    | arg text =>
      obtain ⟨m, rfl⟩ := Nat.exists_eq_add_of_lt hm
      obtain ⟨n, rfl⟩ := Nat.exists_eq_add_of_lt hn
      have hlex : lex s = .word text :: (items.flatMap Item.tokens ++ rest) := h
      rw [parseredirs_stop (by rw [hlex]; rfl)]
      show ∃ r, parseargs (s.length + n + 1) cmd argc (peek s ['<', '>']).2 = .ok r ∧ _
      have hs : lex (peek s ['<', '>']).2 = _ := (lex_peek s _).trans hlex
      have hshort := (peek_suffix s ['<', '>']).length_le
      generalize (peek s ['<', '>']).2 = s' at hs hshort
      have hs' : lex (peek s' ['|', ')', '&', ';']).2 = _ := (lex_peek s' _).trans hs
      obtain ⟨hret, hnext, hlength, hat⟩ := gettoken_cons hs'
      have hshort' := (peek_suffix s' ['|', ')', '&', ';']).length_le
      -- the loop counts this argument before it reads the next
      have hcount : argc + 1 + argCount items < maxargs := by
        have hcons : argCount (.arg text :: items) = argCount items + 1 := rfl
        omega
      have hword : (gettoken (peek s' ['|', ')', '&', ';']).2).1 = 'a' := hret
      have hnul : (gettoken (peek s' ['|', ')', '&', ';']).2).1 ≠ '\x00' := by
        rw [hword]
        decide
      have hfew : ¬ maxargs ≤ argc + 1 := by omega
      rw [parseargs, if_neg (peek_false (by decide) (by rw [hs]; rfl)), if_neg hnul,
        if_neg (not_not.mpr hword), if_neg hfew]
      obtain ⟨r', hr', hmap, hend⟩ := ih (m := s.length + n) (n := s.length + n)
        (cmd.addArg (gettoken (peek s' ['|', ')', '&', ';']).2).2.1) (by omega) (by omega)
        hnext hcount
      refine ⟨r', hr', ?_, hend⟩
      rw [hmap, map_addArg, (hat text rfl).text_eq]
      rfl

theorem parsebacks_complete {k j n : Nat} {cmd : Cmd Word} {c : Cmd (List Char)} {s : List Char}
    {rest : List Token}
    (hn : s.length < n) (h : lex s = List.replicate k (.sym '&') ++ rest)
    (hrest : starts ['&'] rest = false) (hcmd : cmd.map Word.text = backs c j) :
    ∃ r, parsebacks n cmd s = .ok r ∧ r.1.map Word.text = backs c (k + j) ∧ lex r.2 = rest := by
  induction k generalizing n cmd s j with
  | zero =>
    obtain ⟨n, rfl⟩ := Nat.exists_eq_add_of_lt hn
    rw [parsebacks, if_neg (peek_false (by decide) (by rw [h]; exact hrest)), Nat.zero_add]
    exact ⟨_, rfl, hcmd, (lex_peek s ['&']).trans h⟩
  | succ k ih =>
    obtain ⟨n, rfl⟩ := Nat.exists_eq_add_of_lt hn
    have hp : (peek s ['&']).1 = true := peek_true (by decide) (by rw [h]; rfl)
    obtain ⟨hamp, -, hlength⟩ := taken (by decide) (by decide) hp
    have hlex := (List.cons.inj (hamp.symm.trans h)).2
    rw [parsebacks, if_pos hp, Nat.add_assoc, Nat.add_comm 1 j]
    exact ih (by omega) hlex (congrArg Cmd.back hcmd)

/-- The functions of the parser. -/
def Level.parse : Level → Nat → List Char → Except Panic (Cmd Word × List Char)
  | .line => parseline
  | .pipe => parsepipe
  | .exec => parseexec

/-- A depth that is enough for a text of a length. -/
def Level.depth : Level → Nat → Nat
  | .line, length => 4 * length + 4
  | .pipe, length => 4 * length + 3
  | .exec, length => 4 * length + 2

theorem parse_sound {k : Level} {n : Nat} {s : List Char} {r : Cmd Word × List Char}
    (h : k.parse n s = .ok r) :
    Parsed k s r := by
  cases k with
  | line => exact (sound n s r).1 h
  | pipe => exact (sound n s r).2.1 h
  | exec => exact (sound n s r).2.2.2 h

/-- **What is derived is parsed.** -/
theorem complete {k : Level} {ts : List Token} {c : Cmd (List Char)} (h : Derives k ts c) :
    ∀ {n : Nat} {s : List Char} {rest : List Token}, k.depth s.length ≤ n → lex s = ts ++ rest →
    k.Ends rest →
      ∃ r, k.parse n s = .ok r ∧ r.1.map Word.text = c ∧ lex r.2 = rest := by
  induction h with
  | simple items hargs =>
    -- The depth a level needs is spelled out in the fuel, so that each call below it has enough
    -- left.
    intro n s rest hn hlex hrest
    obtain ⟨n, rfl⟩ := Nat.exists_eq_add_of_lt
      (show 4 * s.length + 1 < n by dsimp only [Level.depth] at hn; omega)
    -- A simple command starts with an argument or a redirection, never with a bracket, so
    -- `parseexec` reads arguments and not a block.
    have hparen : starts ['('] (lex s) = false := by
      rw [hlex]
      cases items with
      | nil => exact hrest.starts (by simp [Level.stops])
      | cons item items =>
        cases item with
        | arg text => rfl
        | redir r => cases hk :
            r.kind <;> simp [Item.tokens, Redirection.tokens, hk, Redir.token, starts]
    have hshort := (peek_suffix s ['(']).length_le
    obtain ⟨r, hr, hmap, hend⟩ := parseargs_complete (m := 4 * s.length + 1 + n)
      (n := 4 * s.length + 1 + n) (.exec [])
      (by omega) (by omega) ((lex_peek s ['(']).trans hlex) hrest
      (by omega : 0 + argCount items < maxargs)
    refine ⟨r, ?_, hmap, hend⟩
    show parseexec _ _ = _
    rw [parseexec, if_neg (peek_false (by decide) hparen)]
    exact hr
  | @block ts c _ rs ih =>
    intro n s rest hn hlex hrest
    obtain ⟨n, rfl⟩ : ∃ m, n = 4 * s.length + m + 1 + 1 :=
      ⟨n - (4 * s.length + 2), by dsimp only [Level.depth] at hn; omega⟩
    have hp : (peek s ['(']).1 = true := peek_true (by decide) (by rw [hlex]; rfl)
    have hp' : (peek (peek s ['(']).2 ['(']).1 = true :=
      peek_true (by decide) (by rw [lex_peek, hlex]; rfl)
    have hshort := (peek_suffix s ['(']).length_le
    obtain ⟨hopen, -, hlength⟩ := taken (by decide) (by decide) hp'
    rw [lex_peek, hlex, List.cons_append, List.append_assoc] at hopen
    have hin := (List.cons.inj hopen).2.symm
    -- The line between the brackets is a suffix of the buffer that is shorter by the bracket, hence
    -- the fuel for one more round.
    obtain ⟨r, hr, hmap, hend⟩ := ih (n := 4 * s.length + n)
      (by dsimp only [Level.depth]; omega) hin (Level.Ends.cons (by decide) _)
    have hr : parseline _ _ = _ := hr
    have hshort₁ := (parse_sound (k := .line) hr).suffix.length_le
    have hq : (peek r.2 [')']).1 = true := peek_true (by decide) (by rw [hend]; rfl)
    obtain ⟨hclose, -, hlength'⟩ := taken (by decide) (by decide) hq
    rw [hend] at hclose
    have hredirs := (List.cons.inj hclose).2.symm
    obtain ⟨r', hr', hmap', hend'⟩ := parseredirs_complete (n := 4 * s.length + n) r.1
      (by omega) hredirs (hrest.starts (by simp [Level.stops]))
    refine ⟨r', ?_, by rw [hmap', hmap], hend'⟩
    show parseexec (4 * s.length + n + 1 + 1) _ = _
    rw [parseexec, if_pos hp, parseblock, if_pos hp', hr]
    show (if (peek r.2 [')']).1 = true then _ else _) = _
    rw [if_pos hq]
    exact hr'
  | last _ ih =>
    intro n s rest hn hlex hrest
    obtain ⟨n, rfl⟩ := Nat.exists_eq_add_of_lt
      (show 4 * s.length + 2 < n by dsimp only [Level.depth] at hn; omega)
    obtain ⟨r, hr, hmap, hend⟩ := ih (n := 4 * s.length + 2 + n)
      (by dsimp only [Level.depth]; omega) hlex (hrest.mono (by decide))
    have hr : parseexec _ _ = _ := hr
    -- Behind the last command of a pipeline no bar follows, so `parsepipe` returns what it has.
    refine ⟨(r.1, (peek r.2 ['|']).2), ?_, hmap, (lex_peek r.2 ['|']).trans hend⟩
    show parsepipe _ _ = _
    rw [parsepipe, hr]
    show (if (peek r.2 ['|']).1 = true then _ else _) = _
    rw [if_neg (peek_false (by decide) (by rw [hend]; exact hrest.starts (by simp [Level.stops])))]
  | @pipe ts us c d _ _ ihc ihd =>
    intro n s rest hn hlex hrest
    obtain ⟨n, rfl⟩ := Nat.exists_eq_add_of_lt
      (show 4 * s.length + 2 < n by dsimp only [Level.depth] at hn; omega)
    rw [List.append_assoc] at hlex
    obtain ⟨r, hr, hmap, hend⟩ := ihc (n := 4 * s.length + 2 + n)
      (by dsimp only [Level.depth]; omega) hlex (Level.Ends.cons (by decide) _)
    have hr : parseexec _ _ = _ := hr
    have hshort := (parse_sound (k := .exec) hr).suffix.length_le
    have hp : (peek r.2 ['|']).1 = true := peek_true (by decide) (by rw [hend]; rfl)
    obtain ⟨hbar, -, hlength⟩ := taken (by decide) (by decide) hp
    rw [hend] at hbar
    obtain ⟨r', hr', hmap', hend'⟩ := ihd (n := 4 * s.length + 2 + n)
      (by dsimp only [Level.depth]; omega) (List.cons.inj hbar).2.symm hrest
    have hr' : parsepipe _ _ = _ := hr'
    refine ⟨(.pipe r.1 r'.1, r'.2), ?_, by rw [← hmap, ← hmap']; rfl, hend'⟩
    show parsepipe _ _ = _
    rw [parsepipe, hr]
    show (if (peek r.2 ['|']).1 = true then _ else _) = _
    rw [if_pos hp, hr']
    rfl
  | done _ k ih =>
    intro n s rest hn hlex hrest
    obtain ⟨n, rfl⟩ := Nat.exists_eq_add_of_lt
      (show 4 * s.length + 3 < n by dsimp only [Level.depth] at hn; omega)
    rw [List.append_assoc] at hlex
    -- What ends the pipeline is the first of its `&`, or what ends the line when there is none.
    have hends : Level.Ends .pipe (List.replicate k (.sym '&') ++ rest) := by
      cases k with
      | zero => exact hrest.mono (by decide)
      | succ k => exact .cons (by decide) _
    obtain ⟨r, hr, hmap, hend⟩ := ih (n := 4 * s.length + 3 + n)
      (by dsimp only [Level.depth]; omega) hlex hends
    have hr : parsepipe _ _ = _ := hr
    have hshort := (parse_sound (k := .pipe) hr).suffix.length_le
    obtain ⟨r', hr', hmap', hend'⟩ := parsebacks_complete (n := 4 * s.length + 3 + n) (j := 0)
      (by omega) hend (hrest.starts (by simp [Level.stops])) hmap
    refine ⟨(r'.1, (peek r'.2 [';']).2), ?_, hmap', (lex_peek r'.2 [';']).trans hend'⟩
    show parseline _ _ = _
    rw [parseline, hr]
    show (parsebacks (4 * s.length + 3 + n) r.1 r.2).bind _ = _
    rw [hr']
    show (if (peek r'.2 [';']).1 = true then _ else _) = _
    rw [if_neg (peek_false (by decide) (by rw [hend']; exact hrest.starts (by simp [Level.stops])))]
  | @list ts us c d _ k _ ihc ihd =>
    intro n s rest hn hlex hrest
    obtain ⟨n, rfl⟩ := Nat.exists_eq_add_of_lt
      (show 4 * s.length + 3 < n by dsimp only [Level.depth] at hn; omega)
    rw [List.append_assoc, List.append_assoc] at hlex
    have hends : Level.Ends .pipe (List.replicate k (.sym '&') ++ (.sym ';' :: us ++ rest)) := by
      cases k with
      | zero => exact .cons (by decide) _
      | succ k => exact .cons (by decide) _
    obtain ⟨r, hr, hmap, hend⟩ := ihc (n := 4 * s.length + 3 + n)
      (by dsimp only [Level.depth]; omega) hlex hends
    have hr : parsepipe _ _ = _ := hr
    have hshort := (parse_sound (k := .pipe) hr).suffix.length_le
    obtain ⟨r', hr', hmap', hend'⟩ := parsebacks_complete (n := 4 * s.length + 3 + n) (j := 0)
      (by omega) hend (by rfl) hmap
    obtain ⟨-, -, -, hsuffix', -⟩ := parsebacks_sound hr'
    have hshort' := hsuffix'.length_le
    have hp : (peek r'.2 [';']).1 = true := peek_true (by decide) (by rw [hend']; rfl)
    obtain ⟨hsemi, -, hlength⟩ := taken (by decide) (by decide) hp
    rw [hend'] at hsemi
    -- The rest of the list stands behind the semicolon and is parsed by `parseline` itself.
    obtain ⟨r₂, hr₂, hmap₂, hend₂⟩ := ihd (n := 4 * s.length + 3 + n)
      (by dsimp only [Level.depth]; omega) (List.cons.inj hsemi).2.symm hrest
    have hr₂ : parseline _ _ = _ := hr₂
    refine ⟨(.list r'.1 r₂.1, r₂.2), ?_, by rw [← hmap₂]; exact congrArg (Cmd.list · _) hmap',
      hend₂⟩
    show parseline _ _ = _
    rw [parseline, hr]
    show (parsebacks (4 * s.length + 3 + n) r.1 r.2).bind _ = _
    rw [hr']
    show (if (peek r'.2 [';']).1 = true then _ else _) = _
    rw [if_pos hp, hr₂]
    rfl

/-! ## The words after `nulterminate` -/

theorem getElem?_of_suffix {l l' : List Char} (h : l' <:+ l) (i : Nat) :
    l[l.length - l'.length + i]? = l'[i]? := by
  obtain ⟨pre, rfl⟩ := h
  rw [List.length_append, Nat.add_sub_cancel, List.getElem?_append_right (Nat.le_add_right _ _),
    Nat.add_sub_cancel_left]

theorem cstr_eq {l text : List Char} (hin : ∀ i < text.length, l[i]? = text[i]?)
    (hnul : '\x00' ∉ text) (hend : ∀ c ∈ l[text.length]?, c = '\x00') : cstr l = text := by
  induction text generalizing l with
  | nil =>
    cases l with
    | nil => rfl
    | cons c l =>
      have hc : c = '\x00' := hend c rfl
      simp [cstr, hc]
  | cons c text ih =>
    have hhead := hin 0 (by simp)
    cases l with
    | nil => cases hhead
    | cons d l =>
      cases Option.some.inj hhead
      have hc : c ≠ '\x00' := fun h => hnul (by simp [h])
      have htail := ih (l := l) (fun i hi => hin (i + 1) (by simpa using hi))
        (fun h => hnul (by simp [h])) hend
      simpa [cstr, hc] using htail

theorem nulterminate_eq (len : Nat) (cmd : Cmd Word) (buf : List Char) :
    nulterminate len cmd buf = cmd.words.foldl (zero len) buf := by
  induction cmd generalizing buf with
  | exec argv => rfl
  | redir cmd file mode fd ih => rw [nulterminate, ih, Cmd.words, List.foldl_append,
      List.foldl_cons, List.foldl_nil]
  | pipe left right ihl ihr => rw [nulterminate, ihl, ihr, Cmd.words, List.foldl_append]
  | list left right ihl ihr => rw [nulterminate, ihl, ihr, Cmd.words, List.foldl_append]
  | back cmd ih => rw [nulterminate, ih, Cmd.words]

theorem zeroed_or (p q : Prop) [Decidable p] [Decidable q] (a : Option Char) :
    (if q then (if p then a.map fun _ => '\x00' else a).map fun _ => '\x00'
      else if p then a.map fun _ => '\x00' else a) = if p ∨ q then a.map fun _ => '\x00'
      else a := by
  by_cases hp : p <;> by_cases hq :
    q <;> simp only [hp, hq, if_true, if_false, or_true, true_or, or_self]
  cases a <;> rfl

/-- The NULs are written behind the words, and nothing else changes. -/
theorem getElem?_zeros (len i : Nat) (ws : List Word) (buf : List Char) :
    (ws.foldl (zero len) buf)[i]? =
      if ∃ w ∈ ws, i = len - w.eq.length then buf[i]?.map fun _ => '\x00' else buf[i]? := by
  induction ws generalizing buf with
  | nil => simp
  | cons w ws ih =>
    have hzero : (zero len buf w)[i]? = if i = len - w.eq.length then buf[i]?.map fun _ => '\x00'
      else buf[i]? := by
      by_cases h : i = len - w.eq.length
      · rw [if_pos h, zero, ← h, List.getElem?_set_self']
        rfl
      · rw [if_neg h, zero, List.getElem?_set_ne (Ne.symm h)]
    have hor : (∃ v ∈ w :: ws, i = len - v.eq.length) ↔
        i = len - w.eq.length ∨ ∃ v ∈ ws, i = len - v.eq.length := by
      simp
    rw [List.foldl_cons, ih, hzero, zeroed_or]
    exact if_congr hor.symm rfl rfl

/-- A word in the line is read back as it was typed. -/
theorem readWord_nulterminate {buf text : List Char} {cmd : Cmd Word} {w : Word}
    (hwords : ∀ v ∈ cmd.words, ∃ text, v.At (cstr buf) text) (hw : w ∈ cmd.words)
    (hat : w.At (cstr buf) text) :
    readWord (cstr buf).length (nulterminate (cstr buf).length cmd buf) w = text := by
  have hline : buf = cstr buf ++ buf.dropWhile (· ≠ '\x00') := List.takeWhile_append_dropWhile.symm
  have hchar : ∀ i < (cstr buf).length, buf[i]? = (cstr buf)[i]? := by
    intro i hi
    conv_lhs => rw [hline]
    exact List.getElem?_append_left hi
  have hq := hat.suffix.length_le
  have hlen : w.q.length = text.length + w.eq.length := by rw [hat.split, List.length_append]
  have heq : ∀ {v : Word} {text : List Char}, v.At (cstr buf) text → v.eq <:+ cstr buf := fun hv =>
    List.IsSuffix.trans ⟨_, hv.split.symm⟩ hv.suffix
  rw [readWord, nulterminate_eq]
  refine cstr_eq (fun i hi => ?_) (fun hnul => ?_) fun c hc => ?_
  · -- no NUL is written inside the word, because what stands there may be in a word
    have htext : (cstr buf)[(cstr buf).length - w.q.length + i]? = some text[i] := by
      rw [getElem?_of_suffix hat.suffix, hat.split, List.getElem?_append_left hi,
        List.getElem?_eq_getElem hi]
    have hfree : ¬ ∃ v ∈ cmd.words, (cstr buf).length - w.q.length + i =
      (cstr buf).length - v.eq.length := by
      rintro ⟨v, hv, hi'⟩
      obtain ⟨text', hv⟩ := hwords v hv
      have hhead := getElem?_of_suffix (heq hv) 0
      rw [Nat.add_zero, ← hi', htext] at hhead
      have hout := hv.outside
      rw [List.head?_eq_getElem?, ← hhead] at hout
      exact absurd (hat.inside _ (List.getElem_mem hi)) (by simpa using hout)
    rw [List.getElem?_drop, getElem?_zeros, if_neg hfree, hchar _ (by omega), htext,
      List.getElem?_eq_getElem hi]
  · have hmem : '\x00' ∈ cstr buf := hat.suffix.subset
      (by rw [hat.split]; exact List.mem_append_left _ hnul)
    simpa using List.all_eq_true.mp (List.all_takeWhile (p := (· ≠ '\x00')) (l := buf)) _ hmem
  · have hzero : ∃ v ∈ cmd.words, (cstr buf).length - w.q.length + text.length =
      (cstr buf).length - v.eq.length :=
      ⟨w, hw, by omega⟩
    rw [List.getElem?_drop, getElem?_zeros, if_pos hzero] at hc
    obtain ⟨d, -, rfl⟩ := Option.map_eq_some_iff.mp hc
    rfl

theorem Cmd.map_congr {V : Type} {f g : Word → V} {cmd : Cmd Word}
    (h : ∀ w ∈ cmd.words, f w = g w) : cmd.map f = cmd.map g := by
  induction cmd with
  | exec argv => exact congrArg Cmd.exec (List.map_congr_left h)
  | redir cmd file mode fd ih =>
    rw [Cmd.map, Cmd.map, ih fun w hw => h w (List.mem_append_left _ hw),
      h file (by simp [Cmd.words])]
  | pipe left right ihl ihr =>
    rw [Cmd.map, Cmd.map, ihl fun w hw => h w (List.mem_append_left _ hw),
      ihr fun w hw => h w (List.mem_append_right _ hw)]
  | list left right ihl ihr =>
    rw [Cmd.map, Cmd.map, ihl fun w hw => h w (List.mem_append_left _ hw),
      ihr fun w hw => h w (List.mem_append_right _ hw)]
  | back cmd ih => exact congrArg Cmd.back (ih h)

theorem skip_of_lex {s : List Char} (h : lex s = []) : skip s = [] := by
  rcases gettoken_cases s with ⟨-, hg⟩ | ⟨c, r, -, -, hl, -⟩ | ⟨r, -, hl, -⟩ | ⟨text, r, -,
    -, -, -, hl, -⟩
  · exact congrArg (fun g : Char × Word × List Char => g.2.1.q) hg
  all_goals cases h.symm.trans hl

/-- **The parser of the shell**: it returns, and its results are the commands that the grammar
derives from the tokens of the line, as they are read from the buffer after `nulterminate`. -/
theorem parsecmd_iff (buf : List Char) : parsecmd buf ≠ .error .depth ∧ ∀ c : Cmd (List Char),
    (∃ cmd buf', parsecmd buf = .ok (cmd, buf') ∧ cmd.map (readWord (cstr buf).length buf') = c) ↔
      Derives .line (lex (cstr buf)) c := by
  refine ⟨bind_ne_depth ((returns _ _).1 (Nat.le_refl _)) fun r _ => ?_, fun c => ⟨?_, fun h => ?_⟩⟩
  · by_cases hp : (peek r.2 []).2 = []
    · rw [if_neg (not_not.mpr hp)]
      exact nofun
    · rw [if_pos hp]
      exact nofun
  · rintro ⟨cmd, buf', h, rfl⟩
    obtain ⟨r, hr, h⟩ := bind_ok h
    obtain ⟨-, hwords, ts, hts, hderives⟩ := (sound _ _ r).1 hr
    by_cases hp : (peek r.2 []).2 = []
    · rw [if_neg (not_not.mpr hp)] at h
      cases h
      have hend : lex r.2 = [] := by rw [← lex_peek r.2 [], hp, lex]
      rw [hend, List.append_nil] at hts
      have hread : r.1.map (readWord (cstr buf).length (nulterminate (cstr buf).length r.1 buf)) =
          r.1.map Word.text := by
        refine Cmd.map_congr fun w hw => ?_
        obtain ⟨text, hat⟩ := hwords w hw
        rw [readWord_nulterminate hwords hw hat, hat.text_eq]
      rw [hread, hts]
      exact hderives
    · rw [if_pos hp] at h
      cases h
  · obtain ⟨r, hr, hmap, hend⟩ := complete h (Nat.le_refl (4 * (cstr buf).length + 4))
      (List.append_nil _).symm (.nil _)
    have hr : parseline _ _ = _ := hr
    have hwords := ((sound _ _ r).1 hr).words
    refine ⟨r.1, nulterminate (cstr buf).length r.1 buf, ?_, ?_⟩
    · show (parseline _ _).bind _ = _
      rw [hr]
      exact if_neg (not_not.mpr (skip_of_lex hend))
    · rw [← hmap]
      refine Cmd.map_congr fun w hw => ?_
      obtain ⟨text, hat⟩ := hwords w hw
      rw [readWord_nulterminate hwords hw hat, hat.text_eq]

end Xv6.Sh
