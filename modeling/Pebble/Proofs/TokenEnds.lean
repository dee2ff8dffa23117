import Mathlib.Data.List.Basic
import Mathlib.Tactic.Common
import Pebble.Proofs.Coverage

/-!
# Where a token ends

A token goes on as far as it can, so where it ends is decided by the character behind it, and by
nothing that follows that one. `Token.Closes` says for each kind of token behind which characters
it is complete. Together with `Token.Written`, which says what a token is written as, this
describes the scanner: a text is scanned as a token if and only if it is a text of the token and
what follows closes it (`scannedAs_iff`).

All tokens but comments are closed by blanks and by the beginning of a comment.
-/

namespace Pebble

/-- The token is complete before this character, or at the end of the text. -/
def Token.Closes : Token → Option Char → Prop
  | punct p, next => p.standsAlone = true ∨ next ≠ some '='
  | lit (.int _), next => ∀ c ∈ next, c.isDigit = false ∧ c ≠ '.'
  | lit (.double _), next => ∀ c ∈ next, c.isDigit = false
  | lit (.str _), _ => True
  | comment _, next => ∀ c ∈ next, c = '\n' ∨ c = '\r'
  | eof, _ => True
  | lit (.bool _), next | lit .null, next | ident _, next | keyword _, next =>
    ∀ c ∈ next, Text.isWordChar c = false

theorem Token.ofWord_cases (s : String) :
    (∃ b, ofWord s = lit (.bool b)) ∨ ofWord s = lit .null ∨ (∃ k, ofWord s = keyword k) ∨
      ofWord s = ident s := by
  rw [ofWord]
  cases h : reserved? s with
  | none => exact .inr (.inr (.inr rfl))
  | some t =>
    unfold reserved? at h
    split_ifs at h
    · cases h
      exact .inl ⟨true, rfl⟩
    · cases h
      exact .inl ⟨false, rfl⟩
    · cases h
      exact .inr (.inl rfl)
    · obtain ⟨k, -, rfl⟩ := Option.map_eq_some_iff.mp h
      exact .inr (.inr (.inl ⟨k, rfl⟩))

theorem Token.ofWord_closes {s : String} {next : Option Char} :
    (ofWord s).Closes next ↔ ∀ c ∈ next, Text.isWordChar c = false := by
  rcases ofWord_cases s with ⟨b, h⟩ | h | ⟨k, h⟩ | h <;> rw [h] <;> exact Iff.rfl

theorem Token.isComment_ofWord (s : String) : (ofWord s).isComment = false := by
  rcases ofWord_cases s with ⟨b, h⟩ | h | ⟨k, h⟩ | h <;> rw [h] <;> rfl

/-! ## What is found is complete -/

section
variable {p : Char → Bool} {cs : List Char}

theorem drop_length_takeWhile (p : Char → Bool) (cs : List Char) :
    cs.drop (cs.takeWhile p).length = cs.dropWhile p :=
  calc cs.drop (cs.takeWhile p).length
      = (cs.takeWhile p ++ cs.dropWhile p).drop (cs.takeWhile p).length := by
        rw [List.takeWhile_append_dropWhile]
    _ = cs.dropWhile p := List.drop_left

/-- Behind a run of characters stands one that does not belong to it. -/
theorem eq_false_of_mem_head?_dropWhile {c : Char} (hc : c ∈ (cs.dropWhile p).head?) :
    p c = false := by
  have hhead := List.head?_dropWhile_not p cs
  rw [Option.mem_def.mp hc] at hhead
  exact hhead

end

theorem scanWord_closes {cs : List Char} {t : Token} (h : (scanWord cs).outcome = .ok t) :
    t.Closes (cs.drop (scanWord cs).taken).head? := by
  cases h
  rw [Token.ofWord_closes]
  intro c hc
  rw [scanWord, Scan.token, drop_length_takeWhile] at hc
  exact eq_false_of_mem_head?_dropWhile hc

theorem scanComment_closes {cs : List Char} {t : Token} (h : (scanComment cs).outcome = .ok t) :
    t.Closes (cs.drop (scanComment cs).taken).head? := by
  cases h
  intro c hc
  rw [scanComment, Scan.token, drop_length_takeWhile] at hc
  have hend := eq_false_of_mem_head?_dropWhile hc
  by_contra hline
  rw [not_or] at hline
  simp [hline] at hend

theorem scanString_closes {acc cs : List Char} {n : Nat} {t : Token} (next : Option Char)
    (h : (scanString acc n cs).outcome = .ok t) : t.Closes next := by
  obtain ⟨_, _, _, _, _, _, rfl⟩ := scanString_takes h
  trivial

theorem scanInteger_eq_ok {whole : List Char} {t : Token}
    (h : (scanInteger whole).outcome = .ok t) :
    (scanInteger whole).taken = whole.length ∧ ∃ n, t = .lit (.int n) := by
  unfold scanInteger at h ⊢
  split at h
  · next n _ =>
    cases h
    exact ⟨rfl, n, rfl⟩
  · cases h

theorem unsigned_closes {cs : List Char} {t : Token}
    (h : (scanNumber.unsigned cs).outcome = .ok t) :
    t.Closes (cs.drop (scanNumber.unsigned cs).taken).head? := by
  unfold scanNumber.unsigned at h ⊢
  split at h
  · next more hpoint =>
    split at h
    · cases h
    · cases h
      have hdrop : cs.drop ((cs.takeWhile Char.isDigit).length + 1 +
          (more.takeWhile Char.isDigit).length) = more.dropWhile Char.isDigit := by
        rw [← List.drop_drop, ← List.drop_drop, drop_length_takeWhile, hpoint, List.drop_one,
          List.tail_cons, drop_length_takeWhile]
      intro c hc
      exact eq_false_of_mem_head?_dropWhile (hdrop ▸ hc)
  · next hpoint =>
    obtain ⟨htaken, n, rfl⟩ := scanInteger_eq_ok h
    intro c hc
    rw [htaken, drop_length_takeWhile] at hc
    refine ⟨eq_false_of_mem_head?_dropWhile hc, ?_⟩
    rintro rfl
    obtain ⟨more, hmore⟩ := List.head?_eq_some_iff.mp hc
    exact hpoint more hmore

theorem scanNumber_closes {cs : List Char} {t : Token} (h : (scanNumber cs).outcome = .ok t) :
    t.Closes (cs.drop (scanNumber cs).taken).head? := by
  unfold scanNumber at h ⊢
  split at h
  · split_ifs at h ⊢
    · cases h
    · exact unsigned_closes h
  · exact unsigned_closes h

theorem scanPunct_closes {c : Char} {cs : List Char} {t : Token}
    (h : (scanPunct c cs.head?).outcome = .ok t) :
    t.Closes ((c :: cs).drop (scanPunct c cs.head?).taken).head? := by
  have hdouble : ∀ p, double? c = some p → p.standsAlone = true := by
    intro p hp
    unfold double? at hp
    split at hp <;> cases hp <;> rfl
  have hsingle : ∀ p, single? c = some p → p.standsAlone = true ∨ (double? c).isSome = true := by
    intro p hp
    unfold single? at hp
    split at hp <;> cases hp <;> decide
  unfold scanPunct at h ⊢
  split at h
  · next p hp =>
    cases h
    split_ifs at hp
    exact .inl (hdouble p hp)
  · next p hnone hp =>
    cases h
    split_ifs at hnone with hnext
    · rw [hnone] at hsingle
      exact .inl ((hsingle p hp).resolve_right Bool.false_ne_true)
    · exact .inr hnext
  · cases h

theorem scanToken_closes {c : Char} {cs : List Char} {t : Token}
    (h : (scanToken c cs).outcome = .ok t) :
    t.Closes ((c :: cs).drop (scanToken c cs).taken).head? := by
  unfold scanToken at h ⊢
  split_ifs at h ⊢
  · exact scanComment_closes h
  · exact scanString_closes _ h
  · exact scanNumber_closes h
  · exact scanWord_closes h
  · exact scanPunct_closes h

/-! ## What is complete is found -/

theorem Unescaped.scanString {raw content : List Char} (h : Unescaped raw content)
    (acc : List Char) (n : Nat) (rest : List Char) :
    scanString acc n (raw ++ '"' :: rest) =
      .token (n + raw.length + 1) (.lit (.str (String.ofList (acc.reverse ++ content)))) := by
  induction h generalizing acc n with
  | nil => simp [Pebble.scanString]
  | @plain c raw content hquote hescape hline _ ih =>
    rw [List.cons_append, scanString_cons hquote hescape hline.1 hline.2, ih, List.reverse_cons,
      List.append_assoc, List.singleton_append, List.length_cons, Nat.add_assoc n 1,
      Nat.add_comm 1]
  | @escape e c raw content he _ ih =>
    rw [List.cons_append, List.cons_append, Pebble.scanString, he]
    simp only
    rw [ih, List.reverse_cons, List.append_assoc, List.singleton_append, List.length_cons,
      List.length_cons, Nat.add_assoc n 2, Nat.add_comm 2]

theorem scanInteger_of_natOfDigits {digits : List Char} {n : Int32} (h : Unpadded digits)
    (hn : n.toInt = Decimal.natOfDigits digits) :
    scanInteger digits = .token digits.length (.lit (.int n)) := by
  have hread : Decimal.readInt32? digits = some n := by
    rw [Decimal.readInt32?, Decimal.readInt?_of_digits h.ne_nil h.digits, ← hn, Option.bind_some,
      decide_eq_true n.minValue_le_toInt, decide_eq_true n.toInt_le, Bool.and_self, if_pos rfl,
      Int32.ofInt_toInt]
  rw [scanInteger, hread]

section
variable {t : Token} {w rest : List Char}

theorem Token.Written.scannedAs (h : t.Written w) (hrest : t.Closes rest.head?) :
    ScannedAs w t rest := by
  cases h with
  | punct p => exact p.scannedAs hrest
  | word h =>
    have hword : IsWord (String.ofList w).toList := by rwa [String.toList_ofList]
    have hscanned := hword.scannedAs (Token.ofWord_closes.mp hrest)
    rwa [String.toList_ofList] at hscanned
  | int h hn =>
    rw [← List.append_nil w]
    refine h.scannedAs ?_
    rw [List.append_nil, scanNumber_integer h hrest, scanInteger_of_natOfDigits h hn]
  | @double whole fraction h hne hdigits =>
    refine h.scannedAs ?_
    rw [List.append_assoc, List.cons_append, scanNumber_double h hne hdigits hrest,
      List.length_append, List.length_cons, Nat.add_assoc, Nat.add_comm 1]
  | @str raw content h =>
    refine ⟨'"', raw ++ ['"'], rfl, by decide, ?_⟩
    rw [List.append_assoc, List.singleton_append]
    refine (h.scanString [] 1 rest).trans ?_
    rw [List.reverse_nil, List.nil_append, List.length_cons, List.length_append,
      List.length_singleton, Nat.add_comm 1]
  | @comment line h =>
    refine ⟨'#', line, rfl, by decide, ?_⟩
    have hline : (line ++ rest).takeWhile (fun c ↦ c ≠ '\n' && c ≠ '\r') = line := by
      refine takeWhile_append (fun c hc ↦ by simpa using h c hc) fun c hc ↦ ?_
      rcases hrest c hc with rfl | rfl <;> rfl
    show Scan.token ('#' :: (line ++ rest).takeWhile _).length (.comment (String.ofList (Text.trim
      ((line ++ rest).takeWhile _)))) = _
    rw [hline]

/-- What is scanned as a token is a text of it in front of something that closes it. -/
theorem scannedAs_iff : ScannedAs w t rest ↔ t.Written w ∧ t.Closes rest.head? := by
  refine ⟨?_, fun h ↦ h.1.scannedAs h.2⟩
  rintro ⟨c, cs, rfl, hblank, hscan⟩
  have houtcome : (scanToken c (cs ++ rest)).outcome = .ok t := by rw [hscan]; rfl
  have hcloses := scanToken_closes houtcome
  obtain ⟨text, rest', heq, htaken, hwritten⟩ := scanToken_takes hblank houtcome
  rw [hscan] at hcloses htaken
  obtain ⟨rfl, rfl⟩ := List.append_inj heq htaken
  refine ⟨hwritten, ?_⟩
  rwa [Scan.token, ← List.cons_append, List.drop_left] at hcloses

end

/-! ## Blanks and comments close tokens -/

/-- No character from `lo` to `hi` belongs to the set: none does at `lo`, and nothing changes up to
`hi`. -/
def Text.Boundaries.avoids (b : Text.Boundaries) (lo hi : Nat) : Bool :=
  b.points.toList.countP (Nat.ble · lo) % 2 == 0 &&
    b.points.toList.countP (Nat.ble · hi) == b.points.toList.countP (Nat.ble · lo)

theorem Text.Boundaries.contains_eq_false {b : Text.Boundaries} {lo hi : Nat} {c : Char}
    (h : b.avoids lo hi = true) (hlo : lo ≤ c.toNat) (hhi : c.toNat ≤ hi) :
    b.contains c = false := by
  have hmono : ∀ {m n : Nat}, m ≤ n →
      b.points.toList.countP (Nat.ble · m) ≤ b.points.toList.countP (Nat.ble · n) := by
    intro m n hmn
    refine List.countP_mono_left fun p _ hp ↦ ?_
    exact Nat.ble_eq.mpr ((Nat.ble_eq.mp hp).trans hmn)
  have hble : (fun p ↦ decide (p ≤ c.toNat)) = (Nat.ble · c.toNat) := by
    funext p
    rw [Bool.eq_iff_iff, decide_eq_true_iff, Nat.ble_eq]
  have hlow := hmono hlo
  have hhigh := hmono hhi
  rw [avoids, Bool.and_eq_true, beq_iff_eq, beq_iff_eq] at h
  rw [contains, ← Array.countP_toList, hble, beq_eq_false_iff_ne]
  omega

theorem isBlank_facts {c : Char} (h : Text.isBlank c = true) :
    Text.isWordChar c = false ∧ c ≠ '.' ∧ c ≠ '=' := by
  have hascii : ∀ n < 128, Text.isBlank (Char.ofNat n) = true →
      Text.isWordChar (Char.ofNat n) = false ∧ Char.ofNat n ≠ '.' ∧ Char.ofNat n ≠ '=' := by
    decide
  have hother : ∀ b ∈ [Text.alphabetic, Text.numeric], b.avoids 0x80 0xA0 ∧
      b.avoids 0x1680 0x1680 ∧ b.avoids 0x2000 0x205F ∧ b.avoids 0x3000 0x3000 := by
    decide +kernel
  by_cases hlow : c.toNat < 128
  · have := hascii c.toNat hlow
    rw [Char.ofNat_toNat] at this
    exact this h
  · have hrange : 0x80 ≤ c.toNat ∧ c.toNat ≤ 0xA0 ∨ 0x1680 ≤ c.toNat ∧ c.toNat ≤ 0x1680 ∨
        0x2000 ≤ c.toNat ∧ c.toNat ≤ 0x205F ∨ 0x3000 ≤ c.toNat ∧ c.toNat ≤ 0x3000 := by
      simp only [Text.isBlank, Bool.or_eq_true, Bool.and_eq_true, decide_eq_true_iff,
        beq_iff_eq] at h
      omega
    have houtside : ∀ b ∈ [Text.alphabetic, Text.numeric], b.contains c = false := by
      intro b hb
      obtain ⟨h₁, h₂, h₃, h₄⟩ := hother b hb
      rcases hrange with h | h | h | h
      · exact Text.Boundaries.contains_eq_false h₁ h.1 h.2
      · exact Text.Boundaries.contains_eq_false h₂ h.1 h.2
      · exact Text.Boundaries.contains_eq_false h₃ h.1 h.2
      · exact Text.Boundaries.contains_eq_false h₄ h.1 h.2
    refine ⟨?_, ?_, ?_⟩
    · rw [Text.isWordChar, if_neg hlow, houtside _ (by simp), houtside _ (by simp), Bool.or_self]
    · rintro rfl
      exact hlow (by decide)
    · rintro rfl
      exact hlow (by decide)

/-- Every token but a comment is complete before a blank and before a comment. -/
theorem Token.closes_of_isBlank {t : Token} (ht : t.isComment = false) {c : Char}
    (hc : Text.isBlank c = true ∨ c = '#') : t.Closes (some c) := by
  obtain ⟨hword, hpoint, hequals⟩ : Text.isWordChar c = false ∧ c ≠ '.' ∧ c ≠ '=' := by
    rcases hc with hc | rfl
    · exact isBlank_facts hc
    · decide
  have hdigit : c.isDigit = false := by
    rw [Bool.eq_false_iff]
    intro hdigit
    rw [(isDigit_facts hdigit).2.2.1] at hword
    cases hword
  cases t with
  | punct p => exact .inr fun h ↦ hequals (Option.some.inj h)
  | comment text => cases ht
  | eof => trivial
  | ident | keyword => rintro _ ⟨⟩; exact hword
  | lit v =>
    cases v with
    | int => rintro _ ⟨⟩; exact ⟨hdigit, hpoint⟩
    | double => rintro _ ⟨⟩; exact hdigit
    | str => trivial
    | bool | null => rintro _ ⟨⟩; exact hword

end Pebble
