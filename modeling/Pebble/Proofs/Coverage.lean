import Mathlib.Data.List.Basic
import Mathlib.Tactic.Common
import Pebble.Proofs.Numerals
import Pebble.Proofs.ScannedTokens

/-!
# Scanning loses nothing

The tokens read from a text, written out one after the other with blanks in between, are the text.
So every character belongs to one token or to none, and the place of a token is found by counting
the line feeds and the characters in front of it.

## What a token is written as

A token does not determine its text: a number may end in zeros, a string may hold the same character
escaped or not, a comment is trimmed. `Token.Written` says which texts stand for a token, without
speaking of what follows; the scanner takes the longest one, but nothing here depends on that.

## Failures

After a failure nothing more is read. What was read until then covers a beginning of the text, in the
same way as all tokens of a text without failures do.
-/

namespace Pebble

/-! ## Places by counting -/

namespace Pos

/-- The place behind a beginning of a text: its line feeds give the line, and the characters since
the last of them the column. -/
def behind (before : List Char) : Pos :=
  ⟨1 + before.count '\n', 1 + (before.reverse.takeWhile (· ≠ '\n')).length⟩

theorem behind_concat (before : List Char) (c : Char) :
    behind (before ++ [c]) = (behind before).after c := by
  rw [behind, behind, after, List.count_append, List.reverse_concat, List.takeWhile_cons]
  by_cases hc : c = '\n'
  · subst hc
    simp
    rfl
  · simp [hc]
    omega

/-- Counting agrees with moving on character by character. -/
theorem behind_append (before cs : List Char) :
    behind (before ++ cs) = (behind before).afterAll cs := by
  induction cs generalizing before with
  | nil => rw [List.append_nil, afterAll_nil]
  | cons c cs ih => rw [List.append_cons, ih, behind_concat, afterAll_cons]

/-- In a text, `p` comes before `q`. -/
def IsBefore (p q : Pos) : Prop :=
  p.line < q.line ∨ p.line = q.line ∧ p.col < q.col

theorem IsBefore.trans {p q r : Pos} (h : p.IsBefore q) (h' : q.IsBefore r) : p.IsBefore r := by
  unfold IsBefore at *
  omega

theorem isBefore_after (p : Pos) (c : Char) : p.IsBefore (p.after c) := by
  unfold IsBefore after
  split <;> simp

theorem isBefore_afterAll (p : Pos) {cs : List Char} (h : cs ≠ []) : p.IsBefore (p.afterAll cs) := by
  induction cs generalizing p with
  | nil => exact absurd rfl h
  | cons c cs ih =>
    rw [afterAll_cons]
    rcases eq_or_ne cs [] with rfl | hcs
    · exact p.isBefore_after c
    · exact (p.isBefore_after c).trans (ih _ hcs)

theorem isBefore_behind_append (before : List Char) {cs : List Char} (h : cs ≠ []) :
    (behind before).IsBefore (behind (before ++ cs)) := by
  rw [behind_append]
  exact isBefore_afterAll _ h

end Pos

/-! ## Tokens and their texts -/

/-- Between quotes, these characters stand for those. -/
inductive Unescaped : List Char → List Char → Prop where
  | nil : Unescaped [] []
  | plain {c : Char} {raw cs : List Char} (hquote : c ≠ '"') (hescape : c ≠ '\\')
      (hline : c ≠ '\n' ∧ c ≠ '\r') (h : Unescaped raw cs) : Unescaped (c :: raw) (c :: cs)
  | escape {e c : Char} {raw cs : List Char} (he : unescape? e = some c) (h : Unescaped raw cs) :
      Unescaped ('\\' :: e :: raw) (c :: cs)

/-- `t.Written text`: the token is written as this text. The end mark has none. -/
inductive Token.Written : Token → List Char → Prop where
  | punct (p : Punct) : Written (.punct p) p.spelling.toList
  | word {text : List Char} (h : IsWord text) : Written (.ofWord (String.ofList text)) text
  | int {digits : List Char} {n : Int32} (h : Unpadded digits)
      (hn : n.toInt = Decimal.natOfDigits digits) : Written (.lit (.int n)) digits
  | double {whole fraction : List Char} (h : Unpadded whole) (hne : fraction ≠ [])
      (hdigits : ∀ c ∈ fraction, c.isDigit = true) :
      Written (.lit (.double (Binary64.ofDecimal false (Decimal.natOfDigits (whole ++ fraction))
        (-(fraction.length : Int))))) (whole ++ '.' :: fraction)
  | str {raw cs : List Char} (h : Unescaped raw cs) :
      Written (.lit (.str (String.ofList cs))) ('"' :: (raw ++ ['"']))
  | comment {line : List Char} (h : ∀ c ∈ line, c ≠ '\n' ∧ c ≠ '\r') :
      Written (.comment (String.ofList (Text.trim line))) ('#' :: line)

/-- The look at `cs` takes a beginning of it, which is a text of the token `t`. -/
def Scan.Takes (scan : Scan) (t : Token) (cs : List Char) : Prop :=
  ∃ text rest, cs = text ++ rest ∧ scan.taken = text.length ∧ t.Written text

theorem scanString_takes {acc cs : List Char} {n : Nat} {t : Token}
    (h : (scanString acc n cs).outcome = .ok t) :
    ∃ raw content rest, cs = raw ++ '"' :: rest ∧ Unescaped raw content ∧
      (scanString acc n cs).taken = n + raw.length + 1 ∧
      t = .lit (.str (String.ofList (acc.reverse ++ content))) := by
  -- The content read so far is kept backwards, so it is put in front of what is still to come.
  fun_induction scanString acc n cs with
  | case1 => cases h
  | case2 acc n rest =>
    cases h
    exact ⟨[], [], rest, rfl, .nil, rfl, by rw [List.append_nil]⟩
  | case3 => cases h
  | case4 acc n e cs c he ih =>
    obtain ⟨raw, content, rest, rfl, hraw, htaken, rfl⟩ := ih h
    refine ⟨'\\' :: e :: raw, c :: content, rest, rfl, .escape he hraw, ?_, ?_⟩
    · rw [htaken, List.length_cons, List.length_cons]
      omega
    · rw [List.reverse_cons, List.append_assoc, List.singleton_append]
  | case5 => cases h
  | case6 => cases h
  | case7 acc n c cs hquote _ hescape hline ih =>
    obtain ⟨raw, content, rest, rfl, hraw, htaken, rfl⟩ := ih h
    refine ⟨c :: raw, c :: content, rest, rfl, .plain hquote ?_ ?_ hraw, ?_, ?_⟩
    · intro hc
      obtain ⟨e, cs, hcs⟩ := List.exists_cons_of_ne_nil (List.append_ne_nil_of_right_ne_nil raw
        (List.cons_ne_nil '"' rest))
      exact hescape e cs hc hcs
    · simpa using hline
    · rw [htaken, List.length_cons]
      omega
    · rw [List.reverse_cons, List.append_assoc, List.singleton_append]

theorem scanInteger_takes {whole rest : List Char} {t : Token} (hwhole : Unpadded whole)
    (h : (scanInteger whole).outcome = .ok t) : (scanInteger whole).Takes t (whole ++ rest) := by
  unfold scanInteger at h ⊢
  rw [Decimal.readInt32?, Decimal.readInt?_of_digits hwhole.ne_nil hwhole.digits,
    Option.bind_some] at h ⊢
  split_ifs at h ⊢ with hrange
  · cases h
    refine ⟨whole, rest, rfl, rfl, .int hwhole ?_⟩
    have hmax := of_decide_eq_true (Bool.and_eq_true_iff.mp hrange).2
    exact Int32.toInt_ofInt_of_le (by omega) (Int.lt_of_le_of_lt hmax (by decide))
  · cases h

/-- The digits in front are all read, so a zero among them leads others only if it is refused. -/
theorem unpadded_takeWhile {c : Char} {cs : List Char} (hc : c.isDigit = true)
    (hlead : c = '0' → ∀ d ∈ cs.head?, d.isDigit = false) :
    Unpadded ((c :: cs).takeWhile Char.isDigit) := by
  have hcons : (c :: cs).takeWhile Char.isDigit = c :: cs.takeWhile Char.isDigit := by
    rw [List.takeWhile_cons, if_pos hc]
  refine ⟨hcons ▸ List.cons_ne_nil _ _, List.all_eq_true.mp List.all_takeWhile, ?_⟩
  rw [hcons]
  by_cases hzero : c = '0'
  · refine .inl ?_
    cases cs with
    | nil => rw [hzero, List.takeWhile_nil]
    | cons d cs =>
      rw [hzero, List.takeWhile_cons, if_neg (Bool.eq_false_iff.mp (hlead hzero d rfl))]
  · exact .inr fun h ↦ hzero (Option.some.inj h)

theorem unsigned_takes {cs : List Char} {t : Token}
    (hwhole : Unpadded (cs.takeWhile Char.isDigit))
    (h : (scanNumber.unsigned cs).outcome = .ok t) : (scanNumber.unsigned cs).Takes t cs := by
  have hcs : cs = cs.takeWhile Char.isDigit ++ cs.dropWhile Char.isDigit :=
    List.takeWhile_append_dropWhile.symm
  unfold scanNumber.unsigned at h ⊢
  split at h
  · next more hpoint =>
    have hmore : more = more.takeWhile Char.isDigit ++ more.dropWhile Char.isDigit :=
      List.takeWhile_append_dropWhile.symm
    split at h
    · cases h
    · next hne =>
      cases h
      refine ⟨_ ++ '.' :: more.takeWhile Char.isDigit, more.dropWhile Char.isDigit, ?_, ?_,
        .double hwhole hne (List.all_eq_true.mp List.all_takeWhile)⟩
      · rw [List.append_assoc, List.cons_append, ← hmore, ← hpoint, ← hcs]
      · rw [List.length_append, List.length_cons, ← Nat.add_assoc, Nat.add_right_comm]
        rfl
  · nth_rewrite 2 [hcs]
    exact scanInteger_takes hwhole h

theorem scanNumber_takes {c : Char} {cs : List Char} {t : Token} (hc : c.isDigit = true)
    (h : (scanNumber (c :: cs)).outcome = .ok t) : (scanNumber (c :: cs)).Takes t (c :: cs) := by
  unfold scanNumber at h ⊢
  split at h
  · next d ds heq =>
    obtain ⟨rfl, rfl⟩ := List.cons.inj heq
    split_ifs at h ⊢ with hd
    · cases h
    · refine unsigned_takes (unpadded_takeWhile hc fun _ e he ↦ ?_) h
      cases he
      exact Bool.eq_false_iff.mpr hd
  · next hlead =>
    refine unsigned_takes (unpadded_takeWhile hc fun hzero d hd ↦ ?_) h
    obtain ⟨ds, rfl⟩ := List.head?_eq_some_iff.mp hd
    exact (hlead d ds (by rw [hzero])).elim

theorem scanWord_takes {c : Char} {cs : List Char} {t : Token} (hblank : Text.isBlank c = false)
    (hletter : Text.isLetter c = true) (h : (scanWord (c :: cs)).outcome = .ok t) :
    (scanWord (c :: cs)).Takes t (c :: cs) := by
  have hcons : (c :: cs).takeWhile Text.isWordChar = c :: cs.takeWhile Text.isWordChar := by
    rw [List.takeWhile_cons, Text.isWordChar_of_isLetter hletter, if_pos rfl]
  have hword : IsWord ((c :: cs).takeWhile Text.isWordChar) := by
    refine ⟨hcons ▸ List.cons_ne_nil _ _, ?_, List.all_eq_true.mp List.all_takeWhile⟩
    rw [hcons]
    rintro d ⟨⟩
    exact ⟨hblank, hletter⟩
  cases h
  exact ⟨_, (c :: cs).dropWhile Text.isWordChar, List.takeWhile_append_dropWhile.symm, rfl,
    .word hword⟩

theorem scanComment_takes {cs : List Char} {t : Token}
    (h : (scanComment ('#' :: cs)).outcome = .ok t) :
    (scanComment ('#' :: cs)).Takes t ('#' :: cs) := by
  let inLine : Char → Bool := fun c ↦ c ≠ '\n' && c ≠ '\r'
  have hcons : ('#' :: cs).takeWhile inLine = '#' :: cs.takeWhile inLine := rfl
  have hline : ∀ c ∈ cs.takeWhile inLine, c ≠ '\n' ∧ c ≠ '\r' := by
    intro c hc
    simpa [inLine] using List.all_eq_true.mp List.all_takeWhile c hc
  cases h
  refine ⟨'#' :: cs.takeWhile inLine, cs.dropWhile inLine, ?_, rfl, .comment hline⟩
  rw [List.cons_append, List.takeWhile_append_dropWhile]

theorem scanPunct_takes {c : Char} {cs : List Char} {t : Token}
    (h : (scanPunct c cs.head?).outcome = .ok t) : (scanPunct c cs.head?).Takes t (c :: cs) := by
  have hsingle : ∀ p, single? c = some p → p.spelling.toList = [c] := by
    intro p hp
    unfold single? at hp
    split at hp <;> cases hp <;> rfl
  have hdouble : ∀ p, double? c = some p → p.spelling.toList = [c, '='] := by
    intro p hp
    unfold double? at hp
    split at hp <;> cases hp <;> rfl
  unfold scanPunct at h ⊢
  split at h
  · next p hp =>
    cases h
    split_ifs at hp with hnext
    obtain ⟨ds, rfl⟩ := List.head?_eq_some_iff.mp hnext
    exact ⟨_, ds, by rw [hdouble p hp]; rfl, by rw [hdouble p hp]; rfl, .punct p⟩
  · next p _ hp =>
    cases h
    exact ⟨_, cs, by rw [hsingle p hp]; rfl, by rw [hsingle p hp]; rfl, .punct p⟩
  · cases h

/-- A token that is found is written as the characters that are taken. -/
theorem scanToken_takes {c : Char} {cs : List Char} {t : Token} (hblank : Text.isBlank c = false)
    (h : (scanToken c cs).outcome = .ok t) : (scanToken c cs).Takes t (c :: cs) := by
  unfold scanToken at h ⊢
  split_ifs at h ⊢ with hcomment hquote hdigit hletter
  · subst hcomment
    exact scanComment_takes h
  · subst hquote
    obtain ⟨raw, content, rest, rfl, hraw, htaken, rfl⟩ := scanString_takes h
    refine ⟨'"' :: (raw ++ ['"']), rest, ?_, ?_, .str hraw⟩
    · rw [List.cons_append, List.append_assoc, List.singleton_append]
    · rw [htaken, List.length_cons, List.length_append, List.length_singleton, Nat.add_comm 1]
  · exact scanNumber_takes hdigit h
  · exact scanWord_takes hblank hletter h
  · exact scanPunct_takes h

/-! ## Texts covered by tokens -/

theorem Token.Written.ne_nil {t : Token} {text : List Char} (h : t.Written text) : text ≠ [] := by
  cases h with
  | punct p => cases p <;> decide
  | word h => exact h.ne_nil
  | int h => exact h.ne_nil
  | double => exact List.append_ne_nil_of_right_ne_nil _ (List.cons_ne_nil _ _)
  | str | comment => exact List.cons_ne_nil _ _

theorem Token.Written.ne_eof {t : Token} {text : List Char} (h : t.Written text) : t ≠ .eof := by
  cases h with
  | word h => exact (Token.ofWord_isScanned (by rwa [String.toList_ofList])).1
  | punct | int | double | str | comment => nofun

/-- `Covers before ls cs`: behind `before` stands `cs`, which is made of the texts of these lexemes
in turn, with blanks in front of each, and every lexeme has its place. -/
inductive Covers : List Char → List Lexeme → List Char → Prop where
  | nil (before : List Char) : Covers before [] []
  | cons {before blanks text cs : List Char} {t : Token} {ls : List Lexeme}
      (hblanks : ∀ c ∈ blanks, Text.isBlank c = true) (htext : t.Written text) (hne : text ≠ [])
      (h : Covers (before ++ blanks ++ text) ls cs) :
      Covers before (⟨t, .behind (before ++ blanks)⟩ :: ls) (blanks ++ text ++ cs)

namespace Covers

variable {before cs : List Char} {ls : List Lexeme}

/-- Every lexeme has a text of its own in the text that is covered. -/
theorem exists_text (h : Covers before ls cs) {l : Lexeme} (hl : l ∈ ls) :
    ∃ front text back, cs = front ++ text ++ back ∧ text ≠ [] ∧ l.token.Written text ∧
      l.pos = .behind (before ++ front) := by
  induction h with
  | nil => cases hl
  | @cons before blanks text cs t ls hblanks htext hne _ ih =>
    rcases List.mem_cons.mp hl with rfl | hl
    · exact ⟨blanks, text, cs, rfl, hne, htext, rfl⟩
    · obtain ⟨front, text', back, rfl, hne', htext', hpos⟩ := ih hl
      exact ⟨blanks ++ text ++ front, text', back, by simp only [List.append_assoc], hne', htext',
        by simpa only [List.append_assoc] using hpos⟩

theorem ne_eof (h : Covers before ls cs) : ∀ l ∈ ls, l.token ≠ .eof := by
  intro l hl
  obtain ⟨_, _, _, _, _, hwritten, _⟩ := h.exists_text hl
  exact hwritten.ne_eof

theorem isBefore_behind (h : Covers before ls cs) (more : List Char) :
    ∀ l ∈ ls, l.pos.IsBefore (.behind (before ++ cs ++ more)) := by
  intro l hl
  obtain ⟨front, text, back, rfl, hne, _, hpos⟩ := h.exists_text hl
  have htext : text ++ (back ++ more) ≠ [] := List.append_ne_nil_of_left_ne_nil hne _
  have hbefore := Pos.isBefore_behind_append (before ++ front) htext
  rw [hpos]
  simpa only [List.append_assoc] using hbefore

/-- Each lexeme comes before the next. -/
theorem pairwise (h : Covers before ls cs) : ls.Pairwise fun l m ↦ l.pos.IsBefore m.pos := by
  induction h with
  | nil => exact .nil
  | @cons before blanks text cs t ls hblanks htext hne hrest ih =>
    refine .cons (fun m hm ↦ ?_) ih
    obtain ⟨front, _, _, _, _, _, hpos⟩ := hrest.exists_text hm
    have hfront : text ++ front ≠ [] := List.append_ne_nil_of_left_ne_nil hne _
    have hbefore := Pos.isBefore_behind_append (before ++ blanks) hfront
    rw [hpos]
    simpa only [List.append_assoc] using hbefore

end Covers

/-! ## Scanning step by step -/

namespace Scanner

variable {s s' : Scanner} {before : List Char}

theorem skip_pos (hpos : s.pos = .behind before) {cs rest : List Char} (hs : s.rest = cs ++ rest) :
    s.skip cs.length = ⟨rest, .behind (before ++ cs)⟩ := by
  rw [skip, hs, List.drop_left, List.take_left, hpos, Pos.behind_append]

/-- A step that succeeds moves over blanks, and then over the text of a token unless the text is at
its end. -/
theorem next_covers {l : Lexeme} (hpos : s.pos = .behind before) (h : s.next = (.ok l, s')) :
    (l = ⟨.eof, .behind (before ++ s.rest)⟩ ∧ ∀ c ∈ s.rest, Text.isBlank c = true) ∨
      ∃ blanks text t, s.rest = blanks ++ text ++ s'.rest ∧
        (∀ c ∈ blanks, Text.isBlank c = true) ∧ t.Written text ∧
        l = ⟨t, .behind (before ++ blanks)⟩ ∧ s'.pos = .behind (before ++ blanks ++ text) := by
  have hblanks : ∀ c ∈ s.rest.takeWhile Text.isBlank, Text.isBlank c = true :=
    List.all_eq_true.mp List.all_takeWhile
  have hrest : s.rest = s.rest.takeWhile Text.isBlank ++ s.rest.dropWhile Text.isBlank :=
    List.takeWhile_append_dropWhile.symm
  have hskip : s.skipBlanks = _ := skip_pos hpos hrest
  have hhead := List.head?_dropWhile_not Text.isBlank s.rest
  generalize s.rest.takeWhile Text.isBlank = blanks at hblanks hrest hskip
  generalize s.rest.dropWhile Text.isBlank = cs at hrest hskip hhead
  simp only [next, hskip] at h
  cases cs with
  | nil =>
    rw [List.append_nil] at hrest
    cases h
    exact .inl ⟨by rw [hrest], hrest ▸ hblanks⟩
  | cons c cs =>
    obtain ⟨houtcome, rfl⟩ := Prod.mk.inj h
    split at houtcome
    · next t hscan =>
      cases houtcome
      obtain ⟨text, rest, hcs, htaken, hwritten⟩ := scanToken_takes hhead hscan
      rw [htaken, skip_pos rfl hcs]
      exact .inr ⟨blanks, text, t, by rw [List.append_assoc, ← hcs, hrest], hblanks, hwritten, rfl,
        rfl⟩
    · cases houtcome

/-- With room for every character, what is read covers the text but for a rest. That is blank, unless
a failure stands in it. -/
theorem lexemesFor_covers {fuel : Nat} {ls : List Lexeme} {e : Option ScanError}
    (hpos : s.pos = .behind before) (hfuel : s.rest.length < fuel)
    (h : lexemesFor fuel s = (ls, e)) :
    ∃ ls' covered rest, s.rest = covered ++ rest ∧ Covers before ls' covered ∧
      (e.isSome ∧ ls = ls' ∨
        e = none ∧ ls = ls' ++ [⟨.eof, .behind (before ++ s.rest)⟩] ∧
          ∀ c ∈ rest, Text.isBlank c = true) := by
  induction fuel generalizing s before ls with
  | zero => exact absurd hfuel (Nat.not_lt_zero _)
  | succ fuel ih =>
    rw [lexemesFor] at h
    split at h
    · cases h
      exact ⟨[], [], s.rest, rfl, .nil before, .inl ⟨rfl, rfl⟩⟩
    · next l s' hnext =>
      obtain ⟨rfl, hblank⟩ | ⟨blanks, text, t, hs, hblanks, hwritten, rfl, hpos'⟩ :=
        next_covers hpos hnext
      · cases h
        exact ⟨[], [], s.rest, rfl, .nil before, .inr ⟨rfl, rfl, hblank⟩⟩
      · rw [if_neg hwritten.ne_eof] at h
        obtain ⟨rfl, rfl⟩ := Prod.mk.inj h
        have hlength : s'.rest.length < fuel := by
          have := List.length_pos_iff.mpr hwritten.ne_nil
          rw [hs, List.length_append, List.length_append] at hfuel
          omega
        obtain ⟨ls', covered, rest, hs', hcovers, hend⟩ := ih hpos' hlength (Prod.mk.eta).symm
        refine ⟨_ :: ls', blanks ++ text ++ covered, rest, ?_,
          .cons hblanks hwritten hwritten.ne_nil hcovers, ?_⟩
        · rw [hs, hs', List.append_assoc _ covered]
        · refine hend.imp (And.imp_right (congrArg _)) (And.imp_right (And.imp_left ?_))
          intro hls
          rw [hls, hs, List.cons_append]
          simp only [List.append_assoc]

end Scanner

/-! ## Streams -/

namespace TokenStream

/-- The first `n` entries of a list that goes on with nothing for ever. -/
def entries {α : Type} (xs : List α) (n : Nat) : List (Option α) :=
  (List.range n).map fun k ↦ xs[k]?

theorem entries_nil {α : Type} (n : Nat) : entries ([] : List α) n = List.replicate n none := by
  simp [entries, List.map_const']

theorem entries_cons {α : Type} (x : α) (xs : List α) (n : Nat) :
    entries (x :: xs) (n + 1) = some x :: entries xs n := by
  rw [entries, List.range_succ_eq_map, List.map_cons, List.map_map]
  rfl

section
variable {s s' : Scanner} {outcome : Except ScanError Lexeme} (h : s.next = (outcome, s'))
include h

theorem answers_succ (n : Nat) :
    answers (n + 1) ⟨s, false⟩ = some outcome :: answers n ⟨s', isLast outcome⟩ := by
  rw [answers, next, if_neg Bool.false_ne_true, h]

theorem answers_last (hlast : isLast outcome = true) (n : Nat) :
    answers (n + 1) ⟨s, false⟩ = entries [outcome] (n + 1) := by
  have hdone : answers n ⟨s', true⟩ = List.replicate n none := by
    induction n with
    | zero => rfl
    | succ n ih => exact congrArg (none :: ·) ih
  rw [answers_succ h, hlast, hdone, entries_cons, entries_nil]

end

/-- A stream answers with what the scanner reads at once, and with nothing when that is used up. -/
theorem answers_eq {s : Scanner} {fuel : Nat} {ls : List Lexeme} {e : Option ScanError}
    (hfuel : s.rest.length < fuel) (h : s.lexemesFor fuel = (ls, e)) (n : Nat) :
    answers n ⟨s, false⟩ = entries (ls.map .ok ++ e.toList.map .error) n := by
  induction fuel generalizing s ls n with
  | zero => exact absurd hfuel (Nat.not_lt_zero _)
  | succ fuel ih =>
    cases n with
    | zero => rfl
    | succ n =>
      rw [Scanner.lexemesFor] at h
      split at h
      · next hnext =>
        cases h
        exact answers_last hnext rfl n
      · next l s' hnext =>
        rcases Scanner.next_ok hnext with heof | ⟨hne, -, hlength⟩
        · rw [if_pos heof] at h
          cases h
          exact answers_last hnext (decide_eq_true heof) n
        · rw [if_neg hne] at h
          obtain ⟨rfl, rfl⟩ := Prod.mk.inj h
          have hmore : isLast (.ok l) = false := decide_eq_false hne
          have hfuel' := Nat.lt_of_lt_of_le hlength (Nat.le_of_lt_succ hfuel)
          rw [answers_succ hnext, hmore, ih hfuel' Prod.mk.eta.symm n]
          exact (entries_cons _ _ n).symm

end TokenStream

/-- The tokens of a text cover it, up to blanks at the end, and stand where they say, one after the
other. So do those in front of a failure for the part of the text they cover; in a stream the failure
follows them, and nothing follows a failure or the end mark. -/
theorem tokenize_covers (source : String) :
    (∀ ls, tokenize source = .ok ls →
      (∃ ls' covered blanks, ls = ls' ++ [⟨.eof, .behind source.toList⟩] ∧
        (∀ l ∈ ls', l.token ≠ .eof) ∧ Covers [] ls' covered ∧
        source.toList = covered ++ blanks ∧ ∀ c ∈ blanks, Text.isBlank c = true) ∧
      (ls.Pairwise fun l m ↦ l.pos.IsBefore m.pos) ∧
      ∀ n, (TokenStream.ofString source).answers n = TokenStream.entries (ls.map .ok) n) ∧
    ∀ e, tokenize source = .error e →
      ∃ ls covered rest, (∀ l ∈ ls, l.token ≠ .eof) ∧ Covers [] ls covered ∧
        source.toList = covered ++ rest ∧ (ls.Pairwise fun l m ↦ l.pos.IsBefore m.pos) ∧
        ∀ n, (TokenStream.ofString source).answers n =
          TokenStream.entries (ls.map .ok ++ [.error e]) n := by
  have hpos : (Scanner.ofString source).pos = .behind [] := rfl
  have hfuel : (Scanner.ofString source).rest.length < source.toList.length + 1 :=
    Nat.lt_succ_self _
  obtain ⟨ls, e, hlexemes⟩ : ∃ ls e, (Scanner.ofString source).lexemes = (ls, e) := ⟨_, _, rfl⟩
  obtain ⟨ls', covered, rest, hrest, hcovers, hend⟩ :=
    Scanner.lexemesFor_covers hpos hfuel hlexemes
  have hanswers := TokenStream.answers_eq hfuel hlexemes
  rw [tokenize, hlexemes]
  obtain ⟨hsome, rfl⟩ | ⟨rfl, rfl, hblank⟩ := hend
  · obtain ⟨e, rfl⟩ := Option.isSome_iff_exists.mp hsome
    refine ⟨by rintro _ ⟨⟩, ?_⟩
    rintro _ ⟨⟩
    exact ⟨ls, covered, rest, hcovers.ne_eof, hcovers, hrest, hcovers.pairwise, hanswers⟩
  · refine ⟨?_, by rintro _ ⟨⟩⟩
    rintro _ ⟨⟩
    refine ⟨⟨ls', covered, rest, rfl, hcovers.ne_eof, hcovers, hrest, hblank⟩, ?_, ?_⟩
    · -- The end mark stands behind everything, blanks at the end included.
      refine List.pairwise_append.mpr ⟨hcovers.pairwise, List.pairwise_singleton _ _, ?_⟩
      intro l hl m hm
      have hbefore := hcovers.isBefore_behind rest l hl
      rw [List.mem_singleton.mp hm, hrest]
      rwa [List.append_assoc] at hbefore
    · intro n
      rw [← List.append_nil (List.map _ _)]
      exact hanswers n

end Pebble
