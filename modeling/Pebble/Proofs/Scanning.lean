import Mathlib.Data.List.Basic
import Mathlib.Tactic.Common
import Pebble.Syntax.Printer
import Pebble.Token.Scanner

/-!
# Scanning and spelling

The scanner from both sides. What it makes of any text is limited: names are words, numbers are
not negative. And what a token is written as is scanned as that token, if what follows does not
continue it; `Lexes` puts such pieces together from the end of a text to its beginning, blanks in
between.
-/

namespace Pebble

/-! ## Runs of characters -/

section
variable {p : Char → Bool} {cs rest : List Char}

theorem takeWhile_append (hcs : ∀ c ∈ cs, p c = true) (hrest : ∀ c ∈ rest.head?, p c = false) :
    (cs ++ rest).takeWhile p = cs := by
  rw [List.takeWhile_append_of_pos hcs]
  cases rest with
  | nil => exact List.append_nil cs
  | cons c rest => rw [List.takeWhile_cons, hrest c rfl, if_neg Bool.false_ne_true, List.append_nil]

theorem dropWhile_append (hcs : ∀ c ∈ cs, p c = true) (hrest : ∀ c ∈ rest.head?, p c = false) :
    (cs ++ rest).dropWhile p = rest := by
  rw [List.dropWhile_append_of_pos hcs]
  cases rest with
  | nil => rfl
  | cons c rest => rw [List.dropWhile_cons, hrest c rfl, if_neg Bool.false_ne_true]

end

/-! ## Texts that are scanned to their end -/

/-- `w` is scanned as `t` in front of `rest`. -/
def ScannedAs (w : List Char) (t : Token) (rest : List Char) : Prop :=
  ∃ c cs, w = c :: cs ∧ Text.isBlank c = false ∧ scanToken c (cs ++ rest) = .token w.length t

/-- `cs` is scanned to its end without a failure and has the tokens `ts`, none of them a comment. -/
def Lexes (cs : List Char) (ts : List Token) : Prop :=
  ∀ pos fuel, cs.length < fuel → ∃ ls last, ls.map Lexeme.token = ts ∧
    (∀ l ∈ ls, l.token ≠ .eof ∧ l.token.isComment = false) ∧
    Scanner.lexemesFor fuel ⟨cs, pos⟩ = (ls ++ [⟨.eof, last⟩], none)

namespace Scanner

variable {c : Char} {cs : List Char} {pos : Pos}

theorem next_blank (h : Text.isBlank c = true) :
    (Scanner.mk (c :: cs) pos).next = (Scanner.mk cs (pos.after c)).next := by
  have hskip : (Scanner.mk (c :: cs) pos).skipBlanks =
      (Scanner.mk cs (pos.after c)).skipBlanks := by
    simp only [skipBlanks, List.takeWhile_cons, h, if_pos, List.length_cons]
    rfl
  rw [next, next, hskip]

theorem next_token {w rest : List Char} {t : Token} (h : ScannedAs w t rest) :
    (Scanner.mk (w ++ rest) pos).next = (.ok ⟨t, pos⟩, ⟨rest, pos.afterAll w⟩) := by
  obtain ⟨c, cs, rfl, hblank, hscan⟩ := h
  have hskip : (Scanner.mk (c :: cs ++ rest) pos).skipBlanks = ⟨c :: cs ++ rest, pos⟩ := by
    simp only [skipBlanks, List.cons_append, List.takeWhile_cons, hblank]
    rfl
  rw [next, hskip]
  simp only [List.cons_append, hscan, Scan.token, skip]
  rw [← List.cons_append, List.drop_left, List.take_left]

end Scanner

namespace Lexes

variable {cs : List Char} {ts : List Token}

theorem nil : Lexes [] [] := by
  intro pos fuel hfuel
  cases fuel with
  | zero => exact absurd hfuel (Nat.lt_irrefl _)
  | succ fuel => exact ⟨[], pos, rfl, List.forall_mem_nil _, rfl⟩

theorem blank {c : Char} (hc : Text.isBlank c = true) (h : Lexes cs ts) : Lexes (c :: cs) ts := by
  intro pos fuel hfuel
  cases fuel with
  | zero => exact absurd hfuel (Nat.not_lt_zero _)
  | succ fuel =>
    obtain ⟨ls, last, htokens, hplain, hls⟩ :=
      h (pos.after c) (fuel + 1) (Nat.lt_of_succ_lt hfuel)
    refine ⟨ls, last, htokens, hplain, ?_⟩
    rw [← hls, Scanner.lexemesFor, Scanner.lexemesFor, Scanner.next_blank hc]

theorem token {w : List Char} {t : Token} (hw : ScannedAs w t cs) (heof : t ≠ .eof)
    (hcomment : t.isComment = false) (h : Lexes cs ts) : Lexes (w ++ cs) (t :: ts) := by
  intro pos fuel hfuel
  cases fuel with
  | zero => exact absurd hfuel (Nat.not_lt_zero _)
  | succ fuel =>
    have hlength : cs.length < fuel := by
      obtain ⟨c, w, rfl, -, -⟩ := hw
      rw [List.length_append, List.length_cons] at hfuel
      omega
    obtain ⟨ls, last, rfl, hplain, hls⟩ := h (pos.afterAll w) fuel hlength
    refine ⟨⟨t, pos⟩ :: ls, last, rfl, List.forall_mem_cons.mpr ⟨⟨heof, hcomment⟩, hplain⟩, ?_⟩
    rw [Scanner.lexemesFor, Scanner.next_token hw]
    simp only [heof, if_false, hls]
    rfl

/-- A text scanned to its end has these tokens and the end mark. -/
theorem tokenize {s : String} (h : Lexes s.toList ts) :
    ∃ ls last, ls.map Lexeme.token = ts ∧
      (∀ l ∈ ls, l.token ≠ .eof ∧ l.token.isComment = false) ∧
      Pebble.tokenize s = .ok (ls ++ [⟨.eof, last⟩]) := by
  obtain ⟨ls, last, htokens, hplain, hls⟩ := h .start _ (Nat.lt_succ_self _)
  refine ⟨ls, last, htokens, hplain, ?_⟩
  rw [Pebble.tokenize, Scanner.lexemes, Scanner.ofString, hls]

end Lexes

/-! ## Words -/

/-- What may follow a word. -/
def EndsWord (rest : List Char) : Prop :=
  ∀ c ∈ rest.head?, Text.isWordChar c = false

/-- What may follow any operand: neither a word nor a number goes on with it. -/
def EndsOperand (rest : List Char) : Prop :=
  ∀ c ∈ rest.head?, Text.isWordChar c = false ∧ c ≠ '.'

theorem EndsWord.cons {c : Char} {rest : List Char} (h : Text.isWordChar c = false) :
    EndsWord (c :: rest) := by
  intro d hd
  cases hd
  exact h

theorem EndsOperand.cons {c : Char} {rest : List Char} (hword : Text.isWordChar c = false)
    (hpoint : c ≠ '.') : EndsOperand (c :: rest) := by
  intro d hd
  cases hd
  exact ⟨hword, hpoint⟩

theorem EndsOperand.endsWord {rest : List Char} (h : EndsOperand rest) : EndsWord rest :=
  fun c hc ↦ (h c hc).1

/-- A letter and then letters, numbers and underscores. -/
structure IsWord (w : List Char) : Prop where
  ne_nil : w ≠ []
  head : ∀ c ∈ w.head?, Text.isBlank c = false ∧ Text.isLetter c = true
  tail : ∀ c ∈ w, Text.isWordChar c = true

/-- Whether a text is a word can be computed. -/
theorem IsWord.of_all {w : List Char}
    (hhead : w.head?.any (fun c ↦ !Text.isBlank c && Text.isLetter c) = true)
    (htail : w.all Text.isWordChar = true) : IsWord w := by
  cases w with
  | nil => cases hhead
  | cons c cs =>
    refine ⟨List.cons_ne_nil c cs, fun d hd ↦ ?_, List.all_eq_true.mp htail⟩
    obtain rfl : c = d := Option.some.inj hd
    simpa using hhead

/-- A digit is none of the characters that other tokens begin with, and words go on with it. -/
theorem isDigit_facts {c : Char} (h : c.isDigit = true) :
    Text.isBlank c = false ∧ Text.isLetter c = false ∧ Text.isWordChar c = true ∧ c ≠ '#' ∧
      c ≠ '"' := by
  obtain ⟨hlow, hhigh⟩ := Char.isDigit_iff_toNat.mp h
  have hcode : ∀ n < 58, 48 ≤ n → Text.isBlank (Char.ofNat n) = false ∧
      Text.isLetter (Char.ofNat n) = false ∧ Text.isWordChar (Char.ofNat n) = true ∧
      Char.ofNat n ≠ '#' ∧ Char.ofNat n ≠ '"' := by
    decide
  have := hcode c.toNat (Nat.lt_succ_of_le hhigh) hlow
  rwa [Char.ofNat_toNat] at this

theorem isDigit_of_isLetter {c : Char} (h : Text.isLetter c = true) : c.isDigit = false := by
  rw [Bool.eq_false_iff]
  intro hdigit
  rw [(isDigit_facts hdigit).2.1] at h
  exact Bool.false_ne_true h

theorem IsWord.scannedAs {s : String} {rest : List Char} (h : IsWord s.toList)
    (hrest : EndsWord rest) : ScannedAs s.toList (.ofWord s) rest := by
  obtain ⟨c, cs, hs⟩ := List.exists_cons_of_ne_nil h.ne_nil
  obtain ⟨hblank, hletter⟩ := h.head c (by rw [hs]; rfl)
  have hword : (c :: (cs ++ rest)).takeWhile Text.isWordChar = s.toList := by
    rw [← List.cons_append, ← hs]
    exact takeWhile_append h.tail hrest
  have hcomment : c ≠ '#' := by
    rintro rfl
    exact absurd hletter (by decide)
  have hquote : c ≠ '"' := by
    rintro rfl
    exact absurd hletter (by decide)
  refine ⟨c, cs, hs, hblank, ?_⟩
  rw [scanToken, if_neg hcomment, if_neg hquote, if_neg (by simp [isDigit_of_isLetter hletter]),
    if_pos hletter, scanWord, hword, String.ofList_toList]

/-! ## Strings -/

theorem scanString_cons {c : Char} {acc cs : List Char} {n : Nat} (hquote : c ≠ '"')
    (hescape : c ≠ '\\') (hnewline : c ≠ '\n') (hreturn : c ≠ '\r') :
    scanString acc n (c :: cs) = scanString (c :: acc) (n + 1) cs := by
  have hline : ¬(decide (c = '\n') || decide (c = '\r')) = true := by simp [hnewline, hreturn]
  rw [scanString, if_neg hline]
  · exact fun h ↦ hquote h
  · exact fun h _ ↦ hescape h
  · exact fun _ _ h _ ↦ hescape h

theorem scanString_sourceChars (cs : List Char) (acc : List Char) (n : Nat) (rest : List Char) :
    scanString acc n (cs.flatMap (fun c ↦ (sourceChar c).toList) ++ '"' :: rest) =
      .token (n + (cs.flatMap fun c ↦ (sourceChar c).toList).length + 1)
        (.lit (.str (String.ofList (acc.reverse ++ cs)))) := by
  induction cs generalizing acc n with
  | nil => simp [scanString]
  | cons c cs ih =>
    have hstep : ∀ tail, scanString acc n ((sourceChar c).toList ++ tail) =
        scanString (c :: acc) (n + (sourceChar c).toList.length) tail := by
      intro tail
      unfold sourceChar
      split
      · rfl
      · rfl
      · rfl
      · rfl
      · rfl
      · next hnewline _ hreturn hescape hquote =>
        have hchar : c.toString.toList = [c] := String.toList_singleton c
        rw [hchar, List.singleton_append, List.length_singleton]
        exact scanString_cons hquote hescape hnewline hreturn
    rw [List.flatMap_cons, List.append_assoc, hstep, ih, List.length_append, List.reverse_cons,
      List.append_assoc, List.singleton_append, Nat.add_assoc n]

theorem scannedAs_str (s : String) (rest : List Char) :
    ScannedAs (Literal.str s).sourceText.toList (.lit (.str s)) rest := by
  have htext : (Literal.str s).sourceText.toList =
      '"' :: (s.toList.flatMap (fun c ↦ (sourceChar c).toList) ++ ['"']) := by
    simp [Literal.sourceText, List.flatMap_map]
  refine ⟨'"', _, htext, by decide, ?_⟩
  rw [htext, List.append_assoc, List.singleton_append]
  refine (scanString_sourceChars s.toList [] 1 rest).trans ?_
  rw [List.reverse_nil, List.nil_append, String.ofList_toList, List.length_cons, List.length_append,
    List.length_singleton, Nat.add_comm 1]

/-! ## Fixed spellings -/

theorem Keyword.isWord (k : Keyword) : IsWord k.spelling.toList := by
  cases k <;> exact .of_all (by decide) (by decide)

theorem Keyword.ofWord_spelling (k : Keyword) : Token.ofWord k.spelling = .keyword k := by
  cases k <;> rfl

/-- Signs that a following `=` would not change. -/
def Punct.standsAlone (p : Punct) : Bool :=
  p != .assign && p != .lt && p != .gt

theorem scanPunct_single {c : Char} {p : Punct} {next : Option Char} (hsingle : single? c = some p)
    (h : double? c = none ∨ next ≠ some '=') : scanPunct c next = .token 1 (.punct p) := by
  have hdouble : (if next = some '=' then double? c else none) = none := by
    rcases h with h | h
    · rw [h, ite_self]
    · rw [if_neg h]
  rw [scanPunct, hdouble, hsingle]

theorem Punct.scannedAs {p : Punct} {rest : List Char}
    (h : p.standsAlone = true ∨ rest.head? ≠ some '=') :
    ScannedAs p.spelling.toList (.punct p) rest := by
  cases p with
  | eq | notEq | ltEq | gtEq => exact ⟨_, _, rfl, rfl, rfl⟩
  | assign | lt | gt =>
    have hnext : rest.head? ≠ some '=' := h.resolve_left Bool.false_ne_true
    exact ⟨_, _, rfl, rfl, scanPunct_single rfl (.inr hnext)⟩
  | dot | comma | colon | lparen | rparen | lbracket | rbracket | lbrace | rbrace | plus | minus
  | star | slash => exact ⟨_, _, rfl, rfl, scanPunct_single rfl (.inl rfl)⟩

namespace Lexes

variable {cs : List Char} {ts : List Token}

theorem keyword (k : Keyword) (hends : EndsWord cs) (h : Lexes cs ts) :
    Lexes (k.spelling.toList ++ cs) (.keyword k :: ts) :=
  token (k.ofWord_spelling ▸ k.isWord.scannedAs hends) nofun rfl h

/-- A sign that is not taken for part of a longer one. -/
theorem punct (p : Punct) (hends : p.standsAlone = true ∨ cs.head? ≠ some '=') (h : Lexes cs ts) :
    Lexes (p.spelling.toList ++ cs) (.punct p :: ts) :=
  token (p.scannedAs hends) nofun rfl h

/-- A name that is not reserved. -/
theorem name {s : String} (hs : IsWord s.toList) (hfree : Token.ofWord s = .ident s)
    (hends : EndsWord cs) (h : Lexes cs ts) : Lexes (s.toList ++ cs) (.ident s :: ts) :=
  token (hfree ▸ hs.scannedAs hends) nofun rfl h

theorem blanks {bs : List Char} (hbs : ∀ c ∈ bs, Text.isBlank c = true) (h : Lexes cs ts) :
    Lexes (bs ++ cs) ts := by
  induction bs with
  | nil => exact h
  | cons b bs ih =>
    obtain ⟨hb, hbs⟩ := List.forall_mem_cons.mp hbs
    exact blank hb (ih hbs)

end Lexes

end Pebble
