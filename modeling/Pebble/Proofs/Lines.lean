import Mathlib.Data.List.TakeDrop
import Mathlib.Data.List.TakeWhile
import Mathlib.Tactic.Common
import Pebble.Proofs.StoreHistories

/-!
# Reading the input line by line

The input of a machine falls into segments. Each has one line feed, at its end, but the last one
may have none. Whatever code a machine runs, and in however many runs, its read instructions answer
one segment after the other, and null when there are none left.

## Bytes and characters

The machine decodes a segment first and then takes the characters `\r` and `\n` off its end. What
it answers is said here in bytes: 13 and 10 are taken off first. That it comes to the same rests on
a property of the encoding, by which no character but an ASCII one ends in an ASCII byte
(`fromUTF8?_concat`).

A segment that is not UTF-8 is taken as well, so a run that has failed on it is followed by runs
that read on behind it.
-/

namespace Pebble

/-! ## Segments -/

/-- An input and its segments: it is cut up behind its line feeds and nowhere else. -/
inductive Segments : List UInt8 → List (List UInt8) → Prop where
  | nil : Segments [] []
  | rest {seg : List UInt8} (hne : seg ≠ []) (h : 10 ∉ seg) : Segments seg [seg]
  | line {seg bs : List UInt8} {segs : List (List UInt8)} (h : 10 ∉ seg) (more : Segments bs segs) :
      Segments (seg ++ 10 :: bs) ((seg ++ [10]) :: segs)

/-- The bytes of a segment without its line feed and one carriage return right before that. -/
def segmentBody (seg : List UInt8) : List UInt8 :=
  if [13, 10] <:+ seg then seg.dropLast.dropLast
  else if [10] <:+ seg then seg.dropLast
  else seg

/-- What reading a segment answers. -/
def segmentAnswer (seg : List UInt8) : Except Fault Value :=
  match String.fromUTF8? (segmentBody seg).toByteArray with
  | none => .error .notText
  | some s => .ok (.str s)

/-- What is answered when `k` answers have been given before. -/
def answerAt (segs : List (List UInt8)) (k : Nat) : Except Fault Value :=
  match segs[k]? with
  | none => .ok .null
  | some seg => segmentAnswer seg

section
variable {input seg bs : List UInt8} {segs segs' : List (List UInt8)}

theorem ne_feed_of_not_mem (h : 10 ∉ seg) : ∀ b ∈ seg, (b != 10) = true := by
  intro b hb
  exact bne_iff_ne.mpr fun heq ↦ h (heq ▸ hb)

theorem splitLine_feed (h : 10 ∉ seg) (bs : List UInt8) :
    Exec.splitLine (seg ++ 10 :: bs) = (seg ++ [10], bs) := by
  have hseg := ne_feed_of_not_mem h
  rw [Exec.splitLine, List.span_eq_takeWhile_dropWhile, List.takeWhile_append_of_pos hseg,
    List.dropWhile_append_of_pos hseg, List.takeWhile_cons_of_neg (by decide),
    List.dropWhile_cons_of_neg (by decide), List.append_nil]

theorem splitLine_rest (h : 10 ∉ seg) : Exec.splitLine seg = (seg, []) := by
  have hseg := ne_feed_of_not_mem h
  rw [Exec.splitLine, List.span_eq_takeWhile_dropWhile, List.takeWhile_eq_self_iff.mpr hseg,
    List.dropWhile_eq_nil_iff.mpr hseg]

namespace Segments

theorem flatten (h : Segments input segs) : segs.flatten = input := by
  induction h with
  | nil => rfl
  | rest => rw [List.flatten_singleton]
  | line h more ih => rw [List.flatten_cons, ih, List.append_assoc, List.singleton_append]

/-- The first segment is what is split off. -/
theorem splitLine (h : Segments input (seg :: segs)) :
    seg ≠ [] ∧ Exec.splitLine input = (seg, segs.flatten) ∧ Segments segs.flatten segs := by
  cases h with
  | rest hne h => exact ⟨hne, splitLine_rest h, .nil⟩
  | @line seg bs _ h more =>
    rw [more.flatten]
    exact ⟨List.append_ne_nil_of_right_ne_nil _ (List.cons_ne_nil _ _), splitLine_feed h bs, more⟩

theorem eq_nil (h : Segments [] segs) : segs = [] := by
  cases segs with
  | nil => rfl
  | cons seg segs =>
    obtain ⟨hne, -⟩ := h.splitLine
    have hflat := h.flatten
    rw [List.flatten_cons, List.append_eq_nil_iff] at hflat
    exact absurd hflat.1 hne

theorem unique (h : Segments input segs) (h' : Segments input segs') : segs' = segs := by
  induction segs generalizing input segs' with
  | nil =>
    obtain rfl := h.flatten
    exact h'.eq_nil
  | cons seg segs ih =>
    cases segs' with
    | nil =>
      obtain rfl := h'.flatten
      exact h.eq_nil.symm
    | cons seg' segs' =>
      obtain ⟨-, hsplit, hmore⟩ := h.splitLine
      obtain ⟨-, hsplit', hmore'⟩ := h'.splitLine
      obtain ⟨hseg, hflat⟩ := Prod.mk.inj (hsplit'.symm.trans hsplit)
      rw [hflat] at hmore'
      rw [hseg, ih hmore hmore']

theorem exists_of_bytes (input : List UInt8) : ∃ segs, Segments input segs := by
  induction input with
  | nil => exact ⟨[], .nil⟩
  | cons b bs ih =>
    obtain ⟨segs, hsegs⟩ := ih
    by_cases hb : b = 10
    · subst hb
      exact ⟨_, .line List.not_mem_nil hsegs⟩
    · have hcons : ∀ {seg : List UInt8}, 10 ∉ seg → 10 ∉ b :: seg := fun h ↦
        List.not_mem_cons_of_ne_of_not_mem (Ne.symm hb) h
      cases hsegs with
      | nil => exact ⟨_, .rest (List.cons_ne_nil _ _) (hcons List.not_mem_nil)⟩
      | rest _ h => exact ⟨_, .rest (List.cons_ne_nil _ _) (hcons h)⟩
      | line h more => exact ⟨_, .line (hcons h) more⟩

end Segments

end

/-! ## The text of a segment -/

section
variable {seg bs : List UInt8}

theorem fromUTF8?_eq_some_iff {s : String} :
    String.fromUTF8? bs.toByteArray = some s ↔ s.toList.flatMap String.utf8EncodeChar = bs := by
  have hencode : s.toByteArray = (s.toList.flatMap String.utf8EncodeChar).toByteArray := by
    rw [← String.ofList_toList (s := s), String.toByteArray_ofList, String.toList_ofList,
      List.utf8Encode]
  rw [← List.toByteArray_inj, ← hencode, String.fromUTF8?]
  constructor
  · intro h
    split at h
    · cases h
      rfl
    · cases h
  · intro h
    rw [dif_pos (h ▸ s.isValidUTF8), Option.some_inj, ← String.toByteArray_inj]
    exact h.symm

/-- A character whose last byte is an ASCII one has no other. -/
theorem utf8EncodeChar_cases (c : Char) :
    (∃ b, String.utf8EncodeChar c = [b]) ∨
      ∃ bs b, String.utf8EncodeChar c = bs ++ [b] ∧ 128 ≤ b.toNat := by
  have hlast : ∀ n : Nat, 128 ≤ (UInt8.ofNat (n % 64 + 128)).toNat := by
    intro n
    rw [UInt8.toNat_ofNat']
    omega
  rw [String.utf8EncodeChar]
  split
  · exact .inl ⟨_, rfl⟩
  · split
    · exact .inr ⟨[_], _, rfl, hlast _⟩
    · split
      · exact .inr ⟨[_, _], _, rfl, hlast _⟩
      · exact .inr ⟨[_, _, _], _, rfl, hlast _⟩

/-- An ASCII byte at the end is the last character, and what is before it decodes by itself. -/
theorem fromUTF8?_concat {c : Char} {b : UInt8} (hc : String.utf8EncodeChar c = [b])
    (hb : b.toNat < 128) (bs : List UInt8) :
    String.fromUTF8? (bs ++ [b]).toByteArray =
      (String.fromUTF8? bs.toByteArray).map (·.push c) := by
  cases hbs : String.fromUTF8? bs.toByteArray with
  | some s =>
    rw [Option.map_some, fromUTF8?_eq_some_iff, String.toList_push, List.flatMap_append,
      fromUTF8?_eq_some_iff.mp hbs, List.flatMap_singleton, hc]
  | none =>
    rw [Option.map_none, Option.eq_none_iff_forall_ne_some]
    intro s hs
    have hbytes := fromUTF8?_eq_some_iff.mp hs
    -- The last character of a text that ends in the byte is encoded by the byte alone.
    rcases List.eq_nil_or_concat s.toList with hnil | ⟨cs, d, hcs⟩
    · rw [hnil] at hbytes
      exact absurd hbytes.symm (List.append_ne_nil_of_right_ne_nil _ (List.cons_ne_nil _ _))
    · rw [hcs, List.concat_eq_append, List.flatMap_append, List.flatMap_singleton] at hbytes
      rcases utf8EncodeChar_cases d with ⟨b', hd⟩ | ⟨bs', b', hd, hb'⟩
      · rw [hd] at hbytes
        obtain ⟨hcs, -⟩ := List.append_inj' hbytes rfl
        have hbs' : String.fromUTF8? bs.toByteArray = some (String.ofList cs) := by
          rw [fromUTF8?_eq_some_iff, String.toList_ofList, hcs]
        rw [hbs] at hbs'
        cases hbs'
      · rw [hd, ← List.append_assoc] at hbytes
        obtain ⟨-, hb''⟩ := List.append_inj' hbytes rfl
        rw [List.singleton_inj.mp hb''] at hb'
        omega

/-- Only a carriage return ends in the byte 13, and only a line feed in 10. -/
theorem getLast?_toList {c : Char} {b : UInt8} (hc : String.utf8EncodeChar c = [b]) {s : String}
    (h : s.toList.flatMap String.utf8EncodeChar = bs) (hbs : ¬ [b] <:+ bs) :
    s.toList.getLast? ≠ some c := by
  intro hlast
  obtain ⟨cs, hcs⟩ := List.getLast?_eq_some_iff.mp hlast
  rw [hcs, List.flatMap_append, List.flatMap_singleton, hc] at h
  exact hbs ⟨_, h⟩

theorem chomp_returnFeed (s : String) : Exec.chomp ((s.push '\r').push '\n') = s := by
  have hrev : ((s.push '\r').push '\n').toList.reverse = '\n' :: '\r' :: s.toList.reverse := by
    simp
  rw [Exec.chomp, hrev]
  simp only [List.reverse_reverse, String.ofList_toList]

theorem chomp_feed {s : String} (h : s.toList.getLast? ≠ some '\r') :
    Exec.chomp (s.push '\n') = s := by
  have hrev : (s.push '\n').toList.reverse = '\n' :: s.toList.reverse := by simp
  rw [← List.head?_reverse] at h
  rw [Exec.chomp, hrev]
  split
  · next hcs =>
    rw [(List.cons.inj hcs).2] at h
    exact absurd rfl h
  · next hcs =>
    rw [← (List.cons.inj hcs).2, List.reverse_reverse, String.ofList_toList]
  · next hno => exact absurd rfl (hno _)

theorem chomp_rest {s : String} (h : s.toList.getLast? ≠ some '\n') : Exec.chomp s = s := by
  rw [← List.head?_reverse] at h
  rw [Exec.chomp]
  split
  · next hcs =>
    rw [hcs] at h
    exact absurd rfl h
  · next hcs =>
    rw [hcs] at h
    exact absurd rfl h
  · rfl

/-- To decode a segment and take its end off is to take its end off and decode it. -/
theorem segmentAnswer_eq (seg : List UInt8) :
    segmentAnswer seg =
      match String.fromUTF8? seg.toByteArray with
      | none => .error .notText
      | some s => .ok (.str (Exec.chomp s)) := by
  have hreturn : String.utf8EncodeChar '\r' = [13] := by decide
  have hfeed : String.utf8EncodeChar '\n' = [10] := by decide
  rw [segmentAnswer, segmentBody]
  -- Both bytes are characters of their own, so it does not matter whether decoding comes first.
  by_cases hboth : [13, 10] <:+ seg
  · obtain ⟨bs, rfl⟩ := hboth
    have hbody : (bs ++ [13, 10]).dropLast.dropLast = bs := by simp
    have hsplit : bs ++ [13, 10] = (bs ++ [13]) ++ [10] := by simp
    rw [if_pos (List.suffix_append ..), hbody, hsplit, fromUTF8?_concat hfeed (by decide),
      fromUTF8?_concat hreturn (by decide)]
    cases String.fromUTF8? bs.toByteArray with
    | none => rfl
    | some s => simp only [Option.map_some, chomp_returnFeed]
  · rw [if_neg hboth]
    by_cases hone : [10] <:+ seg
    · obtain ⟨bs, rfl⟩ := hone
      have hbs : ¬ [13] <:+ bs := by
        rintro ⟨bs', rfl⟩
        exact hboth ⟨bs', by simp⟩
      rw [if_pos (List.suffix_append ..), List.dropLast_concat, fromUTF8?_concat hfeed (by decide)]
      cases hs : String.fromUTF8? bs.toByteArray with
      | none => rfl
      | some s =>
        have hlast := getLast?_toList hreturn (fromUTF8?_eq_some_iff.mp hs) hbs
        simp only [Option.map_some, chomp_feed hlast]
    · rw [if_neg hone]
      cases hs : String.fromUTF8? seg.toByteArray with
      | none => rfl
      | some s =>
        have hlast := getLast?_toList hfeed (fromUTF8?_eq_some_iff.mp hs) hone
        simp only [chomp_rest hlast]

end

/-! ## One instruction -/

/-- An action after which the input is what it was. -/
def Exec.LeavesInput {α : Type} (x : Exec α) : Prop :=
  ∀ input, Triple (·.input = input) (·.input = input) x fun _ m ↦ m.input = input

/-- No operation but reading takes anything off the input. -/
theorem Op.leavesInput_exec {op : Op} (hop : op ≠ .read) : Exec.LeavesInput op.exec := by
  intro input
  have hinvariant := Machine.invariant_eq Machine.input (fun _ _ ↦ rfl) (fun _ _ ↦ rfl) input
  refine (Op.maintains_exec hinvariant (fun _ _ ↦ trivial) ?_ ?_ ?_).mono fun _ _ h ↦ h.1
  · exact fun hread ↦ absurd hread hop
  · exact fun _ _ _ hm ↦ hm
  · exact fun _ ↦ ⟨fun _ ↦ trivial, fun hm ↦ hm⟩

section
variable {m m' : Machine} {segs : List (List UInt8)}

/-- A machine that has read: what is answered goes on the stack, or it is a fault. -/
def Machine.answered (m : Machine) (rest : List UInt8) :
    Except Fault Value → EStateM.Result Fault Machine Unit
  | .ok v => .ok () { m with operands := v :: m.operands, input := rest }
  | .error e => .error e { m with input := rest }

theorem Op.read_exec_of_line {b : UInt8} {line rest : List UInt8}
    (h : Exec.splitLine m.input = (b :: line, rest)) :
    Op.read.exec m = m.answered rest (segmentAnswer (b :: line)) := by
  rw [Op.exec, Exec.readLine, bind_assoc, Machine.get_bind, h, segmentAnswer_eq]
  simp only [bind_assoc, Machine.modify_bind]
  cases String.fromUTF8? (b :: line).toByteArray with
  | none => rfl
  | some s => rfl

theorem Op.read_exec_of_end (h : m.input = []) :
    Op.read.exec m = m.answered m.input (.ok .null) := by
  have hsplit : Exec.splitLine m.input = ([], []) := by rw [h]; rfl
  rw [Op.exec, Exec.readLine, bind_assoc, Machine.get_bind, hsplit]
  rfl

/-- Reading takes one segment off. -/
theorem Op.read_exec (h : Segments m.input segs) :
    Op.read.exec m = m.answered segs.tail.flatten (answerAt segs 0) := by
  cases segs with
  | nil =>
    have hinput : m.input = [] := h.flatten.symm
    rw [Op.read_exec_of_end hinput, hinput]
    rfl
  | cons seg segs =>
    obtain ⟨hne, hsplit, -⟩ := h.splitLine
    obtain ⟨b, bs, rfl⟩ := List.exists_cons_of_ne_nil hne
    exact Op.read_exec_of_line hsplit

/-- What the next step reads, unless the limit on steps stops it. If there are too many operands
then, the value that was read is one of them. -/
def Machine.reading? (m : Machine) : Option (Except Fault Value) :=
  if m.op? = some .read then
    match m.step with
    | (.failed ⟨.stepLimit _, _⟩, _) => none
    | (.failed ⟨.notText, _⟩, _) => some (.error .notText)
    | (_, m') => some (.ok (m'.operands.headD .null))
  else none

namespace Machine

/-- What the next steps read. -/
def readingsFor : Nat → Machine → List (Except Fault Value)
  | 0, _ => []
  | n + 1, m =>
    m.reading?.toList ++
      match m.step with
      | (.running, m') => readingsFor n m'
      | _ => []

/-- What is read in an event. -/
def readingsOf (m : Machine) : Event → List (Except Fault Value)
  | .run steps =>
    match m.start with
    | (.running, m') => m'.readingsFor steps
    | _ => []
  | _ => []

/-- What is read in events, in order. -/
def readings (m : Machine) : List Event → List (Except Fault Value)
  | [] => []
  | e :: events => m.readingsOf e ++ (m.perform e).readings events

end Machine

/-- From the first input to the second, what was read is `log`. -/
structure HasRead (input rest : List UInt8) (log : List (Except Fault Value)) : Prop where
  answers : ∀ segs, Segments input segs → ∀ k r, log[k]? = some r → r = answerAt segs k
  left : ∀ segs, Segments input segs → Segments rest (segs.drop log.length)

theorem HasRead.nil (input : List UInt8) : HasRead input input [] :=
  ⟨fun _ _ _ _ h ↦ (nomatch h), fun _ h ↦ h⟩

theorem HasRead.append {input input' input'' : List UInt8} {log log' : List (Except Fault Value)}
    (h : HasRead input input' log) (h' : HasRead input' input'' log') :
    HasRead input input'' (log ++ log') := by
  constructor
  · intro segs hsegs k r hr
    rcases Nat.lt_or_ge k log.length with hk | hk
    · rw [List.getElem?_append_left hk] at hr
      exact h.answers segs hsegs k r hr
    · rw [List.getElem?_append_right hk] at hr
      rw [h'.answers _ (h.left segs hsegs) _ r hr, answerAt, answerAt, List.getElem?_drop,
        Nat.add_sub_cancel' hk]
  · intro segs hsegs
    rw [List.length_append, ← List.drop_drop]
    exact h'.left _ (h.left segs hsegs)

/-- Reading takes one segment, if there is one. -/
theorem HasRead.one {input : List UInt8} {r : Except Fault Value} (h : Segments input segs)
    (hr : r = answerAt segs 0) : HasRead input segs.tail.flatten [r] := by
  constructor
  · intro segs' h' k r' hr'
    obtain ⟨hk, rfl⟩ : k = 0 ∧ r = r' := by
      rw [List.getElem?_singleton] at hr'
      split at hr'
      · exact ⟨‹_›, Option.some.inj hr'⟩
      · cases hr'
    rw [h.unique h', hk, hr]
  · intro segs' h'
    rw [h.unique h', List.length_singleton, List.drop_one]
    cases segs with
    | nil => exact .nil
    | cons seg segs => exact h.splitLine.2.2

theorem answerAt_eq_error {k : Nat} {e : Fault} (h : answerAt segs k = .error e) :
    e = .notText := by
  rw [answerAt] at h
  split at h
  · cases h
  · rw [segmentAnswer] at h
    split at h
    · exact (Except.error.inj h).symm
    · cases h

theorem Op.read_of_ok (h : Segments m.input segs) (hexec : Op.read.exec m = .ok () m') :
    m'.input = segs.tail.flatten ∧ .ok (m'.operands.headD .null) = answerAt segs 0 := by
  rw [Op.read_exec h] at hexec
  cases hr : answerAt segs 0 with
  | ok v =>
    rw [hr] at hexec
    cases hexec
    exact ⟨rfl, rfl⟩
  | error e =>
    rw [hr] at hexec
    cases hexec

theorem Op.read_of_error (h : Segments m.input segs) {e : Fault}
    (hexec : Op.read.exec m = .error e m') :
    m'.input = segs.tail.flatten ∧ .error e = answerAt segs 0 := by
  rw [Op.read_exec h] at hexec
  cases hr : answerAt segs 0 with
  | ok v =>
    rw [hr] at hexec
    cases hexec
  | error e' =>
    rw [hr] at hexec
    cases hexec
    exact ⟨rfl, rfl⟩

theorem Op.input_of_ok {op : Op} (hop : op ≠ .read) (hexec : op.exec m = .ok () m') :
    m'.input = m.input := by
  have hinput := Op.leavesInput_exec hop m.input m rfl
  rw [hexec] at hinput
  exact hinput

theorem Op.input_of_error {op : Op} (hop : op ≠ .read) {e : Fault}
    (hexec : op.exec m = .error e m') : m'.input = m.input := by
  have hinput := Op.leavesInput_exec hop m.input m rfl
  rw [hexec] at hinput
  exact hinput

namespace Machine

theorem op?_of_instr {fr : Frame} {frs : List Frame} {i : Instr} (hfrs : m.frames = fr :: frs)
    (hi : fr.template.instrs[fr.pc]? = some i) : m.op? = some i.op := by
  rw [op?, ← m.put_self_of_frames hfrs, site?_put hi]
  rfl

theorem reading?_of_ne {op : Op} (hop : m.op? = some op) (hne : op ≠ .read) :
    m.reading? = none :=
  if_neg fun h ↦ hne (Option.some.inj (hop.symm.trans h))

/-- A step whose instruction has been executed in the state `m₀`. -/
theorem hasRead_of_ok {m₀ : Machine} {op : Op} (hop : m.op? = some op)
    (hexec : op.exec m₀ = .ok () m') (hm₀ : m₀.input = m.input)
    (hreading : op = .read → m.reading? = some (.ok (m'.operands.headD .null))) :
    HasRead m.input m'.input m.reading?.toList := by
  rw [← hm₀]
  by_cases hread : op = .read
  · rw [hreading hread]
    subst hread
    obtain ⟨segs, hsegs⟩ := Segments.exists_of_bytes m₀.input
    obtain ⟨hinput, hr⟩ := Op.read_of_ok hsegs hexec
    rw [hinput]
    exact .one hsegs hr
  · rw [reading?_of_ne hop hread, Op.input_of_ok hread hexec]
    exact .nil _

/-- A step whose instruction has faulted in the state `m₀`. -/
theorem hasRead_of_error {m₀ : Machine} {op : Op} {e : Fault} (hop : m.op? = some op)
    (hexec : op.exec m₀ = .error e m') (hm₀ : m₀.input = m.input)
    (hreading : op = .read → e = .notText → m.reading? = some (.error .notText)) :
    HasRead m.input m'.input m.reading?.toList := by
  rw [← hm₀]
  by_cases hread : op = .read
  · subst hread
    obtain ⟨segs, hsegs⟩ := Segments.exists_of_bytes m₀.input
    obtain ⟨hinput, hr⟩ := Op.read_of_error hsegs hexec
    obtain rfl := answerAt_eq_error hr.symm
    rw [hreading rfl rfl, hinput]
    exact .one hsegs hr
  · rw [reading?_of_ne hop hread, Op.input_of_error hread hexec]
    exact .nil _

theorem hasRead_step (m : Machine) : HasRead m.input m.step.2.input m.reading?.toList := by
  rcases hstep : m.step with ⟨st, m'⟩
  -- Nothing is read where the step does not get to its instruction.
  cases stepped_of_step hstep with
  | finished h =>
    have hreading : m.reading? = none := by
      rw [reading?, op?, h]
      rfl
    rw [hreading]
    exact .nil _
  | exhausted frames instr =>
    have hreading : m.reading? = none := by
      rw [reading?, hstep]
      split <;> rfl
    rw [hreading]
    exact .nil _
  | faulted frames instr exec =>
    have hop := op?_of_instr frames instr
    refine hasRead_of_error hop exec rfl fun hread he ↦ ?_
    subst he
    rw [reading?, if_pos (hread ▸ hop), hstep]
  | overflowed frames instr exec | running frames instr exec =>
    have hop := op?_of_instr frames instr
    refine hasRead_of_ok hop exec rfl fun hread ↦ ?_
    rw [reading?, if_pos (hread ▸ hop), hstep]

/-! ## Runs and histories -/

theorem hasRead_runFor (n : Nat) (m : Machine) :
    HasRead m.input (m.runFor n).2.input (m.readingsFor n) := by
  induction n generalizing m with
  | zero => exact .nil _
  | succ n ih =>
    have hread := m.hasRead_step
    rw [readingsFor]
    rcases hstep : m.step with ⟨st, m'⟩
    rw [hstep] at hread
    cases st with
    | running =>
      rw [runFor_succ_of_running hstep]
      exact hread.append (ih m')
    | finished | failed =>
      rw [runFor_succ_of_ended hstep (by simp), List.append_nil]
      exact hread

theorem input_start (m : Machine) : m.start.2.input = m.input := by
  rw [start]
  split <;> rfl

theorem hasRead_perform (m : Machine) (e : Event) :
    HasRead m.input (m.perform e).input (m.readingsOf e) := by
  cases e with
  | register t =>
    rw [perform]
    rcases m.register_cases t with ⟨e, -, hreg⟩ | ⟨-, hreg⟩
    · rw [hreg]
      exact .nil _
    · rw [hreg]
      exact .nil _
  | trace on => exact .nil _
  | reset => exact .nil _
  | run steps =>
    have hinput := m.input_start
    rw [perform, readingsOf]
    rcases hstart : m.start with ⟨st, m'⟩
    rw [hstart] at hinput
    rw [← hinput]
    cases st with
    | running => exact m'.hasRead_runFor steps
    | finished | failed => exact .nil _

theorem hasRead_performAll (m : Machine) (events : List Event) :
    HasRead m.input (m.performAll events).input (m.readings events) := by
  induction events generalizing m with
  | nil => exact .nil _
  | cons e events ih => exact (m.hasRead_perform e).append (ih (m.perform e))

/-- **Reading the input line by line.** Let a machine have gone through any events, with runs of
whatever code that may have failed. There is one way to cut its input into segments.
* What it has read are the answers to the segments in order, and then null: the text of a segment
  without its line feed and a carriage return before that, or, for a segment that is not UTF-8, an
  i/o error.
* What it has not read are the segments that are left.
* When it reads again, it is answered the next of them, which is taken off whether it is text or
  not. -/
theorem readings_segments (limits : Limits) (input : List UInt8) (events : List Event) :
    let m := (fresh limits input).performAll events
    let log := (fresh limits input).readings events
    ∃ segs, (∀ segs', Segments input segs' ↔ segs' = segs) ∧
      (∀ k r, log[k]? = some r → r = answerAt segs k) ∧
      m.input = (segs.drop log.length).flatten ∧
      Op.read.exec m =
        m.answered (segs.drop (log.length + 1)).flatten (answerAt segs log.length) := by
  intro m log
  obtain ⟨segs, hsegs⟩ := Segments.exists_of_bytes input
  have hread := (fresh limits input).hasRead_performAll events
  have hleft : Segments m.input (segs.drop log.length) := hread.left segs hsegs
  refine ⟨segs, fun segs' ↦ ⟨hsegs.unique, fun h ↦ h ▸ hsegs⟩, hread.answers segs hsegs,
    hleft.flatten.symm, ?_⟩
  have hanswer : answerAt (segs.drop log.length) 0 = answerAt segs log.length := by
    rw [answerAt, answerAt, List.getElem?_drop, Nat.add_zero]
  rw [Op.read_exec hleft, List.tail_drop, hanswer]

end Machine

end

end Pebble
