import Mathlib.Data.List.Basic
import Mathlib.Tactic.Common
import Pebble.Proofs.RelocatedParsing
import Pebble.Proofs.TokenEnds

/-!
# Spacing does not matter

Blanks and comments may be put into a text wherever they do not cut a token in two: the tokens stay
the same, comments apart, and with them the program or the reason why there is none.

## Where a text may be cut

`Scanner.extentsFor` lists the stretches of a text that its tokens take up, as the scanner comes to
them. A place inside one of them is not free; the ends of a stretch are. `Parted` describes a text
with a free place in it by the tokens in front of the place, and inserting something there goes
along this description: the tokens in front stay complete, since at most the character behind them
changes, and then it is one that closes them.

Comments are the exception, as a blank does not end one. What is inserted right behind a comment
belongs to the comment up to the end of the line, and the rest of it is again of the same kind.
-/

namespace Pebble

/-! ## Texts and their tokens -/

theorem ScannedAs.length_pos {w rest : List Char} {t : Token} (h : ScannedAs w t rest) :
    0 < w.length :=
  List.length_pos_of_ne_nil (scannedAs_iff.mp h).1.ne_nil

/-- The tokens but for comments, of which the first is `l`. -/
theorem map_token_dropComments_cons (l : Lexeme) (ls : List Lexeme) :
    (dropComments (l :: ls)).map Lexeme.token =
      if l.token.isComment then (dropComments ls).map Lexeme.token
      else l.token :: (dropComments ls).map Lexeme.token := by
  rw [dropComments, List.filter_cons]
  cases l.token.isComment <;> rfl

/-- `cs` is scanned to its end without a failure, and these are its tokens but for comments. -/
def Scans (cs : List Char) (ts : List Token) : Prop :=
  ∀ pos fuel, cs.length < fuel → ∃ ls last,
    Scanner.lexemesFor fuel ⟨cs, pos⟩ = (ls ++ [⟨.eof, last⟩], none) ∧
      (dropComments ls).map Lexeme.token = ts

namespace Scans

variable {cs : List Char} {ts : List Token}

theorem nil : Scans [] [] := by
  intro pos fuel hfuel
  obtain _ | fuel := fuel
  · exact absurd hfuel (Nat.not_lt_zero _)
  · exact ⟨[], pos, rfl, rfl⟩

theorem blank {c : Char} (hc : Text.isBlank c = true) (h : Scans cs ts) : Scans (c :: cs) ts := by
  intro pos fuel hfuel
  obtain _ | fuel := fuel
  · exact absurd hfuel (Nat.not_lt_zero _)
  · obtain ⟨ls, last, hls, htokens⟩ := h (pos.after c) (fuel + 1) (Nat.lt_of_succ_lt hfuel)
    refine ⟨ls, last, ?_, htokens⟩
    rw [← hls, Scanner.lexemesFor, Scanner.lexemesFor, Scanner.next_blank hc]

theorem token {w : List Char} {t : Token} (hw : ScannedAs w t cs) (h : Scans cs ts) :
    Scans (w ++ cs) (if t.isComment then ts else t :: ts) := by
  intro pos fuel hfuel
  obtain _ | fuel := fuel
  · exact absurd hfuel (Nat.not_lt_zero _)
  · have hlength := hw.length_pos
    rw [List.length_append] at hfuel
    obtain ⟨ls, last, hls, rfl⟩ := h (pos.afterAll w) fuel (by omega)
    refine ⟨⟨t, pos⟩ :: ls, last, ?_, map_token_dropComments_cons ⟨t, pos⟩ ls⟩
    rw [Scanner.lexemesFor, Scanner.next_token hw]
    simp only [(scannedAs_iff.mp hw).1.ne_eof, if_false, hls]
    rfl

theorem blanks {bs : List Char} (hbs : ∀ c ∈ bs, Text.isBlank c = true) (h : Scans cs ts) :
    Scans (bs ++ cs) ts := by
  induction bs with
  | nil => exact h
  | cons b bs ih =>
    obtain ⟨hb, hbs⟩ := List.forall_mem_cons.mp hbs
    exact blank hb (ih hbs)

end Scans

/-! ## What tokens take up -/

namespace Scanner

/-- Where the tokens of a text begin and end, counted in characters; `offset` of them stand in front
of the scanner. -/
def extentsFor : Nat → Nat → Scanner → List (Nat × Nat)
  | 0, _, _ => []
  | fuel + 1, offset, s =>
    match s.next with
    | (.error _, _) => []
    | (.ok l, s') =>
      if l.token = .eof then []
      else
        let stop := offset + (s.rest.length - s'.rest.length)
        (offset + (s.rest.takeWhile Text.isBlank).length, stop) :: extentsFor fuel stop s'

variable {s s' : Scanner}

/-- A step that succeeds moves over blanks, and then over a token unless the text is at its end. -/
theorem next_scannedAs {l : Lexeme} (h : s.next = (.ok l, s')) :
    (l.token = .eof ∧ ∀ c ∈ s.rest, Text.isBlank c = true) ∨
      ∃ w, s.rest = s.rest.takeWhile Text.isBlank ++ (w ++ s'.rest) ∧
        ScannedAs w l.token s'.rest := by
  have hsplit : s.rest = s.rest.takeWhile Text.isBlank ++ s.rest.dropWhile Text.isBlank :=
    List.takeWhile_append_dropWhile.symm
  have hblanks : ∀ c ∈ s.rest.takeWhile Text.isBlank, Text.isBlank c = true :=
    List.all_eq_true.mp List.all_takeWhile
  have hskip := s.skipBlanks_rest
  have hhead := List.head?_dropWhile_not Text.isBlank s.rest
  simp only [next, hskip] at h
  generalize s.rest.dropWhile Text.isBlank = cs at h hsplit hhead hskip
  cases cs with
  | nil =>
    cases h
    rw [List.append_nil] at hsplit
    exact .inl ⟨rfl, hsplit ▸ hblanks⟩
  | cons c cs =>
    obtain ⟨houtcome, rfl⟩ := Prod.mk.inj h
    split at houtcome
    · next t hscan =>
      cases houtcome
      obtain ⟨w, rest, hcs, htaken, hwritten⟩ := scanToken_takes hhead hscan
      have hcloses := scanToken_closes hscan
      have hrest : (s.skipBlanks.skip (scanToken c cs).taken).rest = rest := by
        rw [skip, hskip, hcs, htaken, List.drop_left]
      rw [hcs, htaken, List.drop_left] at hcloses
      rw [hcs] at hsplit
      rw [hrest]
      exact .inr ⟨w, hsplit, hwritten.scannedAs hcloses⟩
    · cases houtcome

/-- What is read without a failure is nothing, from blanks, or a token and then the rest. -/
theorem lexemesFor_succ {fuel : Nat} {ls : List Lexeme}
    (h : lexemesFor (fuel + 1) s = (ls, none)) :
    (∃ last s', s.next = (.ok ⟨.eof, last⟩, s') ∧ ls = [⟨.eof, last⟩] ∧
        ∀ c ∈ s.rest, Text.isBlank c = true) ∨
      ∃ l s' w ls', s.next = (.ok l, s') ∧ ls = l :: ls' ∧ lexemesFor fuel s' = (ls', none) ∧
        s.rest = s.rest.takeWhile Text.isBlank ++ (w ++ s'.rest) ∧
        ScannedAs w l.token s'.rest := by
  rw [lexemesFor] at h
  split at h
  · cases h
  · next l s' hnext =>
    rcases next_scannedAs hnext with ⟨heof, hblank⟩ | ⟨w, hrest, hw⟩
    · obtain ⟨t, pos⟩ := l
      obtain rfl : t = .eof := heof
      cases h
      exact .inl ⟨pos, s', hnext, rfl, hblank⟩
    · rw [if_neg (scannedAs_iff.mp hw).1.ne_eof] at h
      obtain ⟨rfl, hls⟩ := Prod.mk.inj h
      exact .inr ⟨l, s', w, _, hnext, rfl, Prod.ext rfl hls, hrest, hw⟩

end Scanner

/-- With room for every character, what is scanned without a failure has these tokens wherever it
stands. -/
theorem Scanner.scans_of_lexemesFor {fuel : Nat} {s : Scanner} {ls : List Lexeme}
    (hfuel : s.rest.length < fuel) (h : lexemesFor fuel s = (ls, none)) :
    ∃ ls' last, ls = ls' ++ [⟨.eof, last⟩] ∧
      Scans s.rest ((dropComments ls').map Lexeme.token) := by
  induction fuel generalizing s ls with
  | zero => exact absurd hfuel (Nat.not_lt_zero _)
  | succ fuel ih =>
    rcases lexemesFor_succ h with
      ⟨last, _, _, rfl, hblank⟩ | ⟨l, s', w, ls', _, rfl, hls, hrest, hw⟩
    · exact ⟨[], last, rfl, s.rest.append_nil ▸ Scans.nil.blanks hblank⟩
    · have hlength := hw.length_pos
      have hshorter := congrArg List.length hrest
      rw [List.length_append, List.length_append] at hshorter
      obtain ⟨ls', last, rfl, hscans⟩ := ih (by omega) hls
      refine ⟨l :: ls', last, rfl, ?_⟩
      rw [hrest, map_token_dropComments_cons]
      exact (hscans.token hw).blanks (List.all_eq_true.mp List.all_takeWhile)

/-! ## Places between tokens -/

/-- `Parted front back ts`: these are the tokens of `front ++ back`, comments apart, and none of
them reaches from `front` into `back`. -/
inductive Parted : List Char → List Char → List Token → Prop where
  | here {back : List Char} {ts : List Token} (h : Scans back ts) : Parted [] back ts
  | blank {c : Char} {front back : List Char} {ts : List Token} (hc : Text.isBlank c = true)
      (h : Parted front back ts) : Parted (c :: front) back ts
  | token {w front back : List Char} {t : Token} {ts : List Token}
      (hw : ScannedAs w t (front ++ back)) (h : Parted front back ts) :
      Parted (w ++ front) back (if t.isComment then ts else t :: ts)

namespace Parted

variable {front back : List Char} {ts : List Token}

theorem blanks {bs : List Char} (hbs : ∀ c ∈ bs, Text.isBlank c = true)
    (h : Parted front back ts) : Parted (bs ++ front) back ts := by
  induction bs with
  | nil => exact h
  | cons b bs ih =>
    obtain ⟨hb, hbs⟩ := List.forall_mem_cons.mp hbs
    exact blank hb (ih hbs)

end Parted

/-- A place that no token reaches over is between tokens. -/
theorem Scanner.parted {fuel offset : Nat} {s : Scanner} {front back : List Char}
    {ls : List Lexeme} (hfuel : s.rest.length < fuel) (h : lexemesFor fuel s = (ls, none))
    (hs : s.rest = front ++ back)
    (hfree : ∀ e ∈ extentsFor fuel offset s,
      ¬(e.1 < offset + front.length ∧ offset + front.length < e.2)) :
    ∃ ls' last, ls = ls' ++ [⟨.eof, last⟩] ∧
      Parted front back ((dropComments ls').map Lexeme.token) := by
  induction fuel generalizing s offset front ls with
  | zero => exact absurd hfuel (Nat.not_lt_zero _)
  | succ fuel ih =>
    rcases lexemesFor_succ h with
      ⟨last, _, _, rfl, hblank⟩ | ⟨l, s', w, ls', hnext, rfl, hls, hrest, hw⟩
    · obtain ⟨hfront, hback⟩ := List.forall_mem_append.mp (hs ▸ hblank)
      have hend : Parted [] back [] := .here (back.append_nil ▸ Scans.nil.blanks hback)
      exact ⟨[], last, rfl, front.append_nil ▸ hend.blanks hfront⟩
    · have hlength := hw.length_pos
      have hblanks : ∀ c ∈ s.rest.takeWhile Text.isBlank, Text.isBlank c = true :=
        List.all_eq_true.mp List.all_takeWhile
      rw [extentsFor, hnext] at hfree
      simp only [if_neg (scannedAs_iff.mp hw).1.ne_eof, List.forall_mem_cons] at hfree
      generalize s.rest.takeWhile Text.isBlank = bs at hrest hblanks hfree
      have hsize := congrArg List.length hrest
      rw [List.length_append, List.length_append] at hsize
      obtain ⟨hfirst, hothers⟩ := hfree
      rw [hs] at hrest
      -- no token reaches over the place, so it is not inside this one
      have hplace : front.length ≤ bs.length ∨ (bs ++ w).length ≤ front.length := by
        rw [List.length_append]
        omega
      rcases hplace with hbefore | hbehind
      · obtain ⟨bs', rfl⟩ := List.prefix_of_prefix_length_le ⟨back, rfl⟩ ⟨_, hrest.symm⟩ hbefore
        rw [List.append_assoc] at hrest
        obtain rfl := List.append_cancel_left hrest
        obtain ⟨ls', last, rfl, hscans⟩ := scans_of_lexemesFor (by omega) hls
        refine ⟨l :: ls', last, rfl, ?_⟩
        obtain ⟨hfront, hbs'⟩ := List.forall_mem_append.mp hblanks
        rw [map_token_dropComments_cons]
        exact front.append_nil ▸ (Parted.here ((hscans.token hw).blanks hbs')).blanks hfront
      · rw [← List.append_assoc] at hrest
        obtain ⟨front', rfl⟩ := List.prefix_of_prefix_length_le ⟨_, hrest.symm⟩ ⟨back, rfl⟩ hbehind
        rw [List.append_assoc] at hrest
        have hs' := (List.append_cancel_left hrest).symm
        have hoffset : offset + (bs ++ w ++ front').length =
            offset + (s.rest.length - s'.rest.length) + front'.length := by
          rw [List.length_append, List.length_append]
          omega
        rw [hoffset] at hothers
        obtain ⟨ls', last, rfl, hparted⟩ := ih (by omega) hls hs' hothers
        refine ⟨l :: ls', last, rfl, ?_⟩
        rw [map_token_dropComments_cons, List.append_assoc]
        exact (hparted.token (hs' ▸ hw)).blanks hblanks

/-! ## Blanks and comments put in -/

/-- Blanks and comments, each comment with the end of its line. -/
inductive Filler : List Char → Prop where
  | nil : Filler []
  | blank {c : Char} {cs : List Char} (hc : Text.isBlank c = true) (h : Filler cs) :
      Filler (c :: cs)
  | comment {line cs : List Char} {stop : Char} (hline : ∀ c ∈ line, c ≠ '\n' ∧ c ≠ '\r')
      (hstop : stop = '\n' ∨ stop = '\r') (h : Filler cs) :
      Filler ('#' :: (line ++ stop :: cs))

/-- The characters that do not end a line. -/
def inLine (c : Char) : Bool :=
  c ≠ '\n' && c ≠ '\r'

theorem inLine_eq_true {c : Char} : inLine c = true ↔ c ≠ '\n' ∧ c ≠ '\r' := by
  simp [inLine]

theorem inLine_eq_false {c : Char} : inLine c = false ↔ c = '\n' ∨ c = '\r' := by
  rw [← Bool.not_eq_true, inLine_eq_true, not_and_or, not_not, not_not]

theorem isBlank_of_eq_or_eq {c : Char} (h : c = '\n' ∨ c = '\r') : Text.isBlank c = true := by
  rcases h with rfl | rfl <;> decide

namespace Filler

variable {f : List Char}

theorem head (hf : Filler f) : ∀ c ∈ f.head?, Text.isBlank c = true ∨ c = '#' := by
  cases hf with
  | nil => nofun
  | blank hc => rintro _ ⟨⟩; exact .inl hc
  | comment => rintro _ ⟨⟩; exact .inr rfl

/-- Blanks and comments without what is left of a line are blanks and comments again. -/
theorem dropWhile (hf : Filler f) : Filler (f.dropWhile inLine) := by
  induction hf with
  | nil => exact .nil
  | @blank c cs hc h ih =>
    rw [List.dropWhile_cons]
    split
    · exact ih
    · exact .blank hc h
  | @comment line cs stop hline hstop h ih =>
    have hdrop : ('#' :: (line ++ stop :: cs)).dropWhile inLine = stop :: cs := by
      rw [← List.cons_append]
      refine dropWhile_append ?_ ?_
      · exact List.forall_mem_cons.mpr ⟨by decide, fun c hc ↦ inLine_eq_true.mpr (hline c hc)⟩
      · rintro _ ⟨⟩
        exact inLine_eq_false.mpr hstop
    rw [hdrop]
    exact .blank (isBlank_of_eq_or_eq hstop) h

/-- In front of a text, blanks and comments add nothing to its tokens. -/
theorem scans (hf : Filler f) {back : List Char} {ts : List Token} (h : Scans back ts) :
    Scans (f ++ back) ts := by
  induction hf with
  | nil => exact h
  | blank hc _ ih => exact ih.blank hc
  | @comment line cs stop hline hstop _ ih =>
    have hnext := ih.blank (isBlank_of_eq_or_eq hstop)
    have hcomment : ScannedAs ('#' :: line) (.comment (String.ofList (Text.trim line)))
        (stop :: (cs ++ back)) := by
      refine Token.Written.scannedAs (.comment hline) ?_
      rintro _ ⟨⟩
      exact hstop
    rw [List.cons_append, List.append_assoc, List.cons_append]
    exact hnext.token hcomment

end Filler

namespace ScannedAs

variable {w rest f : List Char} {t : Token}

/-- Only the character behind a token matters. -/
theorem of_head?_eq {rest' : List Char} (h : ScannedAs w t rest)
    (hhead : rest'.head? = rest.head?) :
    ScannedAs w t rest' := by
  rw [scannedAs_iff] at h ⊢
  rwa [hhead]

/-- A token that is not a comment is not changed by blanks and comments behind it. -/
theorem filler (h : ScannedAs w t rest) (ht : t.isComment = false) (hf : Filler f) :
    ScannedAs w t (f ++ rest) := by
  cases hhead : f.head? with
  | none =>
    rw [List.head?_eq_none_iff.mp hhead]
    exact h
  | some c =>
    refine (scannedAs_iff.mp h).1.scannedAs ?_
    rw [List.head?_append, hhead]
    exact Token.closes_of_isBlank ht (hf.head c hhead)

/-- A comment goes on with what follows it in the same line. -/
theorem comment_append (h : ScannedAs w t rest) (ht : t.isComment = true) (f : List Char) :
    ∃ text, ScannedAs (w ++ f.takeWhile inLine) (.comment text) (f.dropWhile inLine ++ rest) := by
  obtain ⟨hwritten, hcloses⟩ := scannedAs_iff.mp h
  cases hwritten with
  | @comment line hline =>
    refine ⟨String.ofList (Text.trim (line ++ f.takeWhile inLine)), ?_⟩
    refine Token.Written.scannedAs (.comment ?_) ?_
    · refine List.forall_mem_append.mpr ⟨hline, fun c hc ↦ ?_⟩
      exact inLine_eq_true.mp (List.all_eq_true.mp List.all_takeWhile c hc)
    · intro c hc
      cases hdrop : f.dropWhile inLine with
      | nil =>
        rw [hdrop] at hc
        exact hcloses c hc
      | cons d ds =>
        have hd : d ∈ (f.dropWhile inLine).head? := by rw [hdrop]; rfl
        rw [hdrop] at hc
        cases hc
        exact inLine_eq_false.mp (eq_false_of_mem_head?_dropWhile hd)
  | word => rw [Token.isComment_ofWord] at ht; cases ht
  | punct | int | double | str => cases ht

end ScannedAs

/-- Blanks and comments put in between tokens do not change them. -/
theorem Parted.insert {front back f : List Char} {ts : List Token} (h : Parted front back ts)
    (hf : Filler f) : Scans (front ++ (f ++ back)) ts := by
  induction h generalizing f with
  | here h => exact hf.scans h
  | blank hc _ ih => exact (ih hf).blank hc
  | @token w front back t ts hw _ ih =>
    rw [List.append_assoc]
    cases front with
    | cons c front => exact (ih hf).token (hw.of_head?_eq rfl)
    | nil =>
      cases ht : t.isComment with
      | false =>
        have hscans := (ih hf).token (hw.filler ht hf)
        rwa [ht] at hscans
      | true =>
        -- what is put in belongs to the comment up to the end of the line
        obtain ⟨text, hcomment⟩ := hw.comment_append ht f
        have hscans := (ih hf.dropWhile).token hcomment
        rwa [List.nil_append, ← List.append_assoc, List.append_assoc w,
          List.takeWhile_append_dropWhile, List.append_assoc] at hscans

/-! ## Whole texts -/

theorem tokenize_eq_ok {source : String} {ls : List Lexeme} :
    tokenize source = .ok ls ↔ (Scanner.ofString source).lexemes = (ls, none) := by
  rw [tokenize]
  rcases (Scanner.ofString source).lexemes with ⟨ls', _ | e⟩
  · exact ⟨fun h ↦ by cases h; rfl, fun h ↦ by cases h; rfl⟩
  · exact ⟨by rintro ⟨⟩, by rintro ⟨⟩⟩

theorem Scans.tokenize {source : String} {ts : List Token} (h : Scans source.toList ts) :
    ∃ ls, Pebble.tokenize source = .ok ls ∧ ∃ ls' last, ls = ls' ++ [⟨.eof, last⟩] ∧
      (dropComments ls').map Lexeme.token = ts := by
  obtain ⟨ls, last, hls, htokens⟩ := h .start _ (Nat.lt_succ_self _)
  exact ⟨_, tokenize_eq_ok.mpr hls, ls, last, rfl, htokens⟩

/-- Where the tokens of a text begin and end, counted in characters. -/
def extents (source : String) : List (Nat × Nat) :=
  Scanner.extentsFor (source.toList.length + 1) 0 (.ofString source)

/-- The characters of an extent are the text of its token. -/
theorem Scanner.extentsFor_written {fuel : Nat} {s : Scanner} {ls : List Lexeme}
    (hfuel : s.rest.length < fuel) (h : lexemesFor fuel s = (ls, none)) (before : List Char) :
    ∃ ls' last, ls = ls' ++ [⟨.eof, last⟩] ∧
      List.Forall₂ (fun l e ↦ l.token.Written (((before ++ s.rest).take e.2).drop e.1)) ls'
        (extentsFor fuel before.length s) := by
  induction fuel generalizing s ls before with
  | zero => exact absurd hfuel (Nat.not_lt_zero _)
  | succ fuel ih =>
    rcases lexemesFor_succ h with
      ⟨last, s', hnext, rfl, _⟩ | ⟨l, s', w, ls', hnext, rfl, hls, hrest, hw⟩
    · refine ⟨[], last, rfl, ?_⟩
      rw [extentsFor, hnext]
      exact .nil
    · have hwritten := (scannedAs_iff.mp hw).1
      have hlength := hw.length_pos
      rw [extentsFor, hnext]
      simp only [if_neg hwritten.ne_eof]
      generalize s.rest.takeWhile Text.isBlank = bs at hrest
      have hsize := congrArg List.length hrest
      rw [List.length_append, List.length_append] at hsize
      have hstop : before.length + (s.rest.length - s'.rest.length) =
          (before ++ bs ++ w).length := by
        rw [List.length_append, List.length_append]
        omega
      have htext : before ++ s.rest = before ++ bs ++ w ++ s'.rest := by
        rw [hrest]
        simp only [List.append_assoc]
      obtain ⟨ls', last, rfl, hall⟩ := ih (by omega) hls (before ++ bs ++ w)
      rw [hstop, htext]
      refine ⟨l :: ls', last, rfl, .cons ?_ hall⟩
      rwa [List.take_left, ← List.length_append, List.drop_left]

/-- The extents of a text are those of its tokens but for the end mark, in turn. -/
theorem extents_written {source : String} {ls : List Lexeme} (h : tokenize source = .ok ls) :
    ∃ ls' last, ls = ls' ++ [⟨.eof, last⟩] ∧
      List.Forall₂ (fun l e ↦ l.token.Written ((source.toList.take e.2).drop e.1)) ls'
        (extents source) :=
  Scanner.extentsFor_written (Nat.lt_succ_self _) (tokenize_eq_ok.mp h) []

/-- The same tokens, comments apart, have the same program up to places, or the same fault. -/
theorem parse_of_tokens_eq {ls ls' : List Lexeme}
    (h : (dropComments ls').map Lexeme.token = (dropComments ls).map Lexeme.token) :
    (∃ p p', parse ls = .ok p ∧ parse ls' = .ok p' ∧ p'.unplaced = p.unplaced) ∨
      ∃ e e', parse ls = .error e ∧ parse ls' = .error e' ∧ e'.fault = e.fault := by
  -- both are compared with these tokens all in one place
  let r : Relocation := ⟨fun _ ↦ .start, [], rfl⟩
  let one := ((dropComments ls).map Lexeme.token).map (⟨·, .start⟩ : Token → Lexeme)
  have hone : dropComments one = one := by
    refine List.filter_eq_self.mpr fun l hl ↦ ?_
    obtain ⟨t, ht, rfl⟩ := List.mem_map.mp hl
    obtain ⟨l₀, hl₀, rfl⟩ := List.mem_map.mp ht
    exact (List.mem_filter.mp hl₀).2
  have hmoved : ∀ ls₀, (dropComments ls₀).map Lexeme.token = (dropComments ls).map Lexeme.token →
      dropComments one = (dropComments ls₀).map (Lexeme.moved r.place) ++ r.tail := by
    intro ls₀ hls₀
    rw [hone, List.append_nil]
    show ((dropComments ls).map Lexeme.token).map _ = _
    rw [← hls₀, List.map_map]
    rfl
  rcases r.parse_cases (hmoved ls rfl) fun _ _ ↦ rfl with ⟨p, hp, hone⟩ | ⟨e, e₁, he, hone, -, he₁⟩
  · rcases r.parse_cases (hmoved ls' h) fun _ _ ↦ rfl with ⟨p', hp', hone'⟩ | ⟨_, _, _, hone', _⟩
    · refine .inl ⟨p, p', hp, hp', ?_⟩
      rw [← p.moved_start, ← p'.moved_start]
      exact Except.ok.inj (hone'.symm.trans hone)
    · cases hone'.symm.trans hone
  · rcases r.parse_cases (hmoved ls' h) fun _ _ ↦ rfl with
      ⟨_, _, hone'⟩ | ⟨e', e₂, he', hone', -, he₂⟩
    · cases hone'.symm.trans hone
    · refine .inr ⟨e, e', he, he', ?_⟩
      have heq := Except.error.inj (hone'.symm.trans hone)
      rw [he₁ rfl, he₂ rfl] at heq
      exact congrArg (·.fault) heq

/-- **Spacing does not matter.** Blanks and comments put into a text between its tokens leave it
with the same tokens, comments apart, and with the same program, or with the same fault and its
message. -/
theorem tokenize_insert_filler {front back filler : String} {ls : List Lexeme}
    (h : tokenize (front ++ back) = .ok ls)
    (hfree : ∀ e ∈ extents (front ++ back), ¬(e.1 < front.length ∧ front.length < e.2))
    (hfiller : Filler filler.toList) :
    ∃ ls', tokenize (front ++ filler ++ back) = .ok ls' ∧
      (dropComments ls').map Lexeme.token = (dropComments ls).map Lexeme.token ∧
      ((∃ p p', parse ls = .ok p ∧ parse ls' = .ok p' ∧ p'.unplaced = p.unplaced) ∨
        ∃ e e', parse ls = .error e ∧ parse ls' = .error e' ∧ e'.fault = e.fault) := by
  have htext : (Scanner.ofString (front ++ back)).rest = front.toList ++ back.toList :=
    String.toList_append
  have hplace : front.length = 0 + front.toList.length := by
    rw [Nat.zero_add, String.length_toList]
  rw [hplace] at hfree
  obtain ⟨ls₁, last, rfl, hparted⟩ :=
    Scanner.parted (Nat.lt_succ_self _) (tokenize_eq_ok.mp h) htext hfree
  have hscans := hparted.insert hfiller
  rw [← List.append_assoc, ← String.toList_append, ← String.toList_append] at hscans
  obtain ⟨ls', hls', ls₂, last', rfl, htokens⟩ := hscans.tokenize
  have hsame : (dropComments (ls₂ ++ [⟨.eof, last'⟩])).map Lexeme.token =
      (dropComments (ls₁ ++ [⟨.eof, last⟩])).map Lexeme.token := by
    rw [dropComments, dropComments, List.filter_append, List.filter_append, List.map_append,
      List.map_append]
    exact congrArg (· ++ [.eof]) htokens
  exact ⟨_, hls', hsame, parse_of_tokens_eq hsame⟩

/-- Right behind a comment, where what is put in belongs to the comment up to the end of its
line. -/
theorem tokenize_insert_filler_behind_comment :
    ∃ ls ls', tokenize ("x<1#a" ++ "\ny") = .ok ls ∧
      (∀ e ∈ extents ("x<1#a" ++ "\ny"), ¬(e.1 < "x<1#a".length ∧ "x<1#a".length < e.2)) ∧
      Filler "#b\n\t".toList ∧ tokenize ("x<1#a" ++ "#b\n\t" ++ "\ny") = .ok ls' ∧
      (dropComments ls').map Lexeme.token = (dropComments ls).map Lexeme.token := by
  have h : tokenize ("x<1#a" ++ "\ny") = .ok [⟨.ident "x", ⟨1, 1⟩⟩, ⟨.punct .lt, ⟨1, 2⟩⟩,
      ⟨.lit (.int 1), ⟨1, 3⟩⟩, ⟨.comment "a", ⟨1, 4⟩⟩, ⟨.ident "y", ⟨2, 1⟩⟩, ⟨.eof, ⟨2, 2⟩⟩] := by
    rfl
  have hfree : ∀ e ∈ extents ("x<1#a" ++ "\ny"),
      ¬(e.1 < "x<1#a".length ∧ "x<1#a".length < e.2) := by
    decide +kernel
  have hfiller : Filler "#b\n\t".toList := by
    have htext : "#b\n\t".toList = '#' :: (['b'] ++ '\n' :: ['\t']) := by rfl
    rw [htext]
    exact .comment (by simp) (.inl rfl) (.blank (by decide) .nil)
  obtain ⟨ls', hls', htokens, -⟩ := tokenize_insert_filler h hfree hfiller
  exact ⟨_, ls', h, hfree, hfiller, hls', htokens⟩

end Pebble
