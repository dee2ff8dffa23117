import Mathlib.Data.List.Basic
import Mathlib.Tactic.Common
import Pebble.Proofs.Numerals
import Pebble.Proofs.Scanning

/-!
# What the scanner makes

Of all tokens the scanner makes only some: names are words that are not reserved, integers are not
negative, doubles have no sign. A text that is scanned without a failure gives such tokens and one
end mark behind them.
-/

namespace Pebble

/-- A word that is not reserved. -/
structure IsName (s : String) : Prop where
  isWord : IsWord s.toList
  free : Token.ofWord s = .ident s

/-- A literal as a text can have it: numbers have no sign. -/
def Literal.IsScanned : Literal → Prop
  | .int n => 0 ≤ n
  | .double d => ∃ bits ≤ Binary64.infinityBits, d = Binary64.ofMagnitude false bits
  | _ => True

/-- A token as a text can have it. -/
def Token.IsScanned : Token → Prop
  | .lit v => v.IsScanned
  | .ident s => IsName s
  | _ => True

/-- What is known of a look at the characters that found a token. -/
structure Scan.Finds (scan : Scan) (t : Token) : Prop where
  outcome : scan.outcome = .ok t
  taken : 0 < scan.taken
  ne_eof : t ≠ .eof
  scanned : t.IsScanned

theorem scanString_finds {acc cs : List Char} {n : Nat} {t : Token}
    (h : (scanString acc n cs).outcome = .ok t) : (scanString acc n cs).Finds t := by
  fun_induction scanString acc n cs with
  | case1 => cases h
  | case2 => cases h; exact ⟨rfl, Nat.succ_pos _, nofun, trivial⟩
  | case3 => cases h
  | case4 _ _ _ _ _ _ ih => exact ih h
  | case5 => cases h
  | case6 => cases h
  | case7 _ _ _ _ _ _ _ _ ih => exact ih h

theorem scanInteger_finds {whole : List Char} {t : Token} (hne : whole ≠ [])
    (hdigits : ∀ c ∈ whole, c.isDigit = true) (h : (scanInteger whole).outcome = .ok t) :
    (scanInteger whole).Finds t := by
  have hread := Decimal.readInt?_of_digits hne hdigits
  unfold scanInteger Decimal.readInt32? at h ⊢
  rw [hread, Option.bind_some] at h ⊢
  split_ifs at h ⊢ with hrange
  · cases h
    refine ⟨rfl, List.length_pos_of_ne_nil hne, nofun, ?_⟩
    have hmax := of_decide_eq_true (Bool.and_eq_true_iff.mp hrange).2
    have htoInt : (Int32.ofInt (Decimal.natOfDigits whole)).toInt = Decimal.natOfDigits whole :=
      Int32.toInt_ofInt_of_le (by omega) (Int.lt_of_le_of_lt hmax (by decide))
    refine Int32.le_iff_toInt_le.mpr ?_
    rw [htoInt]
    exact Int.natCast_nonneg _
  · cases h

theorem scanNumber_finds {c : Char} {cs : List Char} {t : Token} (hc : c.isDigit = true)
    (h : (scanNumber (c :: cs)).outcome = .ok t) : (scanNumber (c :: cs)).Finds t := by
  have hwhole : (c :: cs).takeWhile Char.isDigit ≠ [] := by
    rw [List.takeWhile_cons, hc, if_pos rfl]
    exact List.cons_ne_nil _ _
  have hunsigned : ∀ t, (scanNumber.unsigned (c :: cs)).outcome = .ok t →
      (scanNumber.unsigned (c :: cs)).Finds t := by
    intro t h
    unfold scanNumber.unsigned at h ⊢
    split at h
    · split at h
      · cases h
      · cases h
        refine ⟨rfl, ?_, nofun, _, Binary64.decimalBits_le _ _, rfl⟩
        exact Nat.add_pos_left (Nat.succ_pos _) _
    · exact scanInteger_finds hwhole (fun d hd ↦ List.all_eq_true.mp List.all_takeWhile d hd) h
  unfold scanNumber at h ⊢
  split at h
  · split_ifs at h ⊢
    · cases h
    · exact hunsigned t h
  · exact hunsigned t h

theorem Token.reserved?_isScanned {s : String} {t : Token} (h : reserved? s = some t) :
    t ≠ .eof ∧ t.IsScanned := by
  unfold reserved? at h
  split_ifs at h
  · cases h
    exact ⟨nofun, trivial⟩
  · cases h
    exact ⟨nofun, trivial⟩
  · cases h
    exact ⟨nofun, trivial⟩
  · obtain ⟨k, -, rfl⟩ := Option.map_eq_some_iff.mp h
    exact ⟨nofun, trivial⟩

theorem Token.ofWord_isScanned {s : String} (hs : IsWord s.toList) :
    ofWord s ≠ .eof ∧ (ofWord s).IsScanned := by
  cases h : reserved? s with
  | none =>
    have hfree : ofWord s = .ident s := by rw [ofWord, h]; rfl
    rw [hfree]
    exact ⟨nofun, hs, hfree⟩
  | some t =>
    have hreserved : ofWord s = t := by rw [ofWord, h]; rfl
    rw [hreserved]
    exact reserved?_isScanned h

theorem scanWord_finds {c : Char} {cs : List Char} (hblank : Text.isBlank c = false)
    (hletter : Text.isLetter c = true) {t : Token} (h : (scanWord (c :: cs)).outcome = .ok t) :
    (scanWord (c :: cs)).Finds t := by
  have hword : (c :: cs).takeWhile Text.isWordChar = c :: cs.takeWhile Text.isWordChar := by
    rw [List.takeWhile_cons, Text.isWordChar_of_isLetter hletter, if_pos rfl]
  have hisWord : IsWord (String.ofList ((c :: cs).takeWhile Text.isWordChar)).toList := by
    rw [String.toList_ofList]
    refine ⟨hword ▸ List.cons_ne_nil _ _, ?_, List.all_eq_true.mp List.all_takeWhile⟩
    rw [hword]
    rintro d ⟨⟩
    exact ⟨hblank, hletter⟩
  cases h
  obtain ⟨hne, hscanned⟩ := Token.ofWord_isScanned hisWord
  exact ⟨rfl, List.length_pos_of_ne_nil (hword ▸ List.cons_ne_nil _ _), hne, hscanned⟩

/-- What the scanner can find at a character that is not blank. -/
theorem scanToken_finds {c : Char} {cs : List Char} {t : Token} (hblank : Text.isBlank c = false)
    (h : (scanToken c cs).outcome = .ok t) : (scanToken c cs).Finds t := by
  unfold scanToken at h ⊢
  split_ifs at h ⊢ with hcomment hquote hdigit hletter
  · cases h
    subst hcomment
    exact ⟨rfl, Nat.succ_pos _, nofun, trivial⟩
  · exact scanString_finds h
  · exact scanNumber_finds hdigit h
  · exact scanWord_finds hblank hletter h
  · unfold scanPunct at h ⊢
    split at h
    · cases h
      exact ⟨rfl, Nat.succ_pos _, nofun, trivial⟩
    · cases h
      exact ⟨rfl, Nat.succ_pos _, nofun, trivial⟩
    · cases h

namespace Scanner

variable {s s' : Scanner}

theorem skipBlanks_rest (s : Scanner) : s.skipBlanks.rest = s.rest.dropWhile Text.isBlank :=
  calc s.rest.drop (s.rest.takeWhile Text.isBlank).length
      = (s.rest.takeWhile Text.isBlank ++ s.rest.dropWhile Text.isBlank).drop
          (s.rest.takeWhile Text.isBlank).length := by rw [List.takeWhile_append_dropWhile]
    _ = s.rest.dropWhile Text.isBlank := List.drop_left

/-- A step that succeeds is at the end of the text, or finds a token and moves on. -/
theorem next_ok {l : Lexeme} (h : s.next = (.ok l, s')) :
    l.token = .eof ∨ l.token ≠ .eof ∧ l.token.IsScanned ∧ s'.rest.length < s.rest.length := by
  have hlength : s.skipBlanks.rest.length ≤ s.rest.length := by
    rw [skipBlanks_rest]
    exact (List.dropWhile_sublist _).length_le
  have hhead := List.head?_dropWhile_not Text.isBlank s.rest
  rw [← skipBlanks_rest] at hhead
  simp only [next] at h
  split at h
  · cases h
    exact .inl rfl
  · next c cs hrest =>
    rw [hrest] at hhead hlength
    obtain ⟨houtcome, rfl⟩ := Prod.mk.inj h
    split at houtcome
    · next t hscan =>
      cases houtcome
      obtain ⟨-, htaken, hne, hscanned⟩ := scanToken_finds hhead hscan
      refine .inr ⟨hne, hscanned, ?_⟩
      rw [skip, hrest, List.length_drop]
      exact Nat.lt_of_lt_of_le (Nat.sub_lt (Nat.succ_pos _) htaken) hlength
    · cases houtcome

/-- With room for every character, tokens are read up to the end mark. -/
theorem lexemesFor_ok {fuel : Nat} {ls : List Lexeme} (hfuel : s.rest.length < fuel)
    (h : lexemesFor fuel s = (ls, none)) :
    ∃ ls' pos, ls = ls' ++ [⟨.eof, pos⟩] ∧ ∀ l ∈ ls', l.token ≠ .eof ∧ l.token.IsScanned := by
  induction fuel generalizing s ls with
  | zero => exact absurd hfuel (Nat.not_lt_zero _)
  | succ fuel ih =>
    rw [lexemesFor] at h
    split at h
    · cases h
    · next l s' hnext =>
      rcases next_ok hnext with heof | ⟨hne, hscanned, hlength⟩
      · rw [if_pos heof] at h
        cases h
        refine ⟨[], l.pos, ?_, List.forall_mem_nil _⟩
        rw [List.nil_append, ← heof]
      · rw [if_neg hne] at h
        obtain ⟨rfl, hrest⟩ := Prod.mk.inj h
        obtain ⟨ls', pos, hls, hall⟩ := ih (Nat.lt_of_lt_of_le hlength (Nat.le_of_lt_succ hfuel))
          (Prod.ext rfl hrest)
        exact ⟨l :: ls', pos, congrArg (l :: ·) hls,
          List.forall_mem_cons.mpr ⟨⟨hne, hscanned⟩, hall⟩⟩

end Scanner

/-- A text that is scanned without a failure. -/
theorem tokenize_ok {source : String} {ls : List Lexeme} (h : tokenize source = .ok ls) :
    ∃ ls' pos, ls = ls' ++ [⟨.eof, pos⟩] ∧ ∀ l ∈ ls', l.token ≠ .eof ∧ l.token.IsScanned := by
  unfold tokenize at h
  split at h
  · next ls₀ hlexemes =>
    cases h
    exact Scanner.lexemesFor_ok (Nat.lt_succ_self _) hlexemes
  · cases h

end Pebble
