import AFLPlusPlus.Config
import AFLPlusPlus.Support.Utf8
import Mathlib.Algebra.Order.Ring.Nat

/-!
# Which queue entries are text

`check_if_text` scans the file of a queue entry and counts the steps that see
ASCII and those that see UTF-8.  The scan is held against the segmentation of the
content into single bytes and encoded characters.
-/

namespace AFLPlusPlus

open Utf8

def aflTxtMinLen : Nat := 12

def aflTxtMinPercent : Nat := 94

structure TextScan where
  offset : Nat
  ascii : Nat
  utf8 : Nat
  comp : Int

/-- `&&`: the second operand is read only if the first one holds. -/
def shortAnd (first second : Option Bool) : Option Bool :=
  first.bind fun holds => if holds then second else some false

/-- `||`: the second operand is read only if the first one fails. -/
def shortOr (first second : Option Bool) : Option Bool :=
  first.bind fun holds => if holds then some true else second

/-- Tab, line feed, carriage return and the printable characters. -/
def PlainText (byte : BitVec 8) : Prop :=
  byte = 0x09#8 ∨ byte = 0x0A#8 ∨ byte = 0x0D#8 ∨ Within 0x20#8 0x7E#8 byte

instance (byte : BitVec 8) : Decidable (PlainText byte) :=
  inferInstanceAs (Decidable (_ ∨ _))

section Tests

variable (buf : List (BitVec 8)) (len offset : Nat)

/-- A comparison of one byte with both ends of a range.  There is no value
behind the end of the buffer. -/
def between (low high : BitVec 8) (index : Nat) : Option Bool :=
  buf[index]?.map fun byte => decide (Within low high byte)

def equals (value : BitVec 8) (index : Nat) : Option Bool :=
  buf[index]?.map fun byte => decide (byte = value)

/-- Non-overlong sequences of 2 bytes. -/
def twoBytes : Option Bool :=
  shortAnd (some (decide (1 < len - offset)))
    (shortAnd (between buf 0xC2#8 0xDF#8 offset)
      (between buf 0x80#8 0xBF#8 (offset + 1)))

/-- Sequences of 3 bytes: excluding overlongs, straight ones, and excluding
surrogates. -/
def threeBytes : Option Bool :=
  shortAnd (some (decide (2 < len - offset)))
    (shortOr
      (shortAnd (equals buf 0xE0#8 offset)
        (shortAnd (between buf 0xA0#8 0xBF#8 (offset + 1))
          (between buf 0x80#8 0xBF#8 (offset + 2))))
      (shortOr
        (shortAnd
          (shortOr (between buf 0xE1#8 0xEC#8 offset)
            (shortOr (equals buf 0xEE#8 offset) (equals buf 0xEF#8 offset)))
          (shortAnd (between buf 0x80#8 0xBF#8 (offset + 1))
            (between buf 0x80#8 0xBF#8 (offset + 2))))
        (shortAnd (equals buf 0xED#8 offset)
          (shortAnd (between buf 0x80#8 0x9F#8 (offset + 1))
            (between buf 0x80#8 0xBF#8 (offset + 2))))))

/-- Sequences of 4 bytes: planes 1-3, planes 4-15, and plane 16. -/
def fourBytes : Option Bool :=
  shortAnd (some (decide (3 < len - offset)))
    (shortOr
      (shortAnd (equals buf 0xF0#8 offset)
        (shortAnd (between buf 0x90#8 0xBF#8 (offset + 1))
          (shortAnd (between buf 0x80#8 0xBF#8 (offset + 2))
            (between buf 0x80#8 0xBF#8 (offset + 3)))))
      (shortOr
        (shortAnd (between buf 0xF1#8 0xF3#8 offset)
          (shortAnd (between buf 0x80#8 0xBF#8 (offset + 1))
            (shortAnd (between buf 0x80#8 0xBF#8 (offset + 2))
              (between buf 0x80#8 0xBF#8 (offset + 3)))))
        (shortAnd (equals buf 0xF4#8 offset)
          (shortAnd (between buf 0x80#8 0x8F#8 (offset + 1))
            (shortAnd (between buf 0x80#8 0xBF#8 (offset + 2))
              (between buf 0x80#8 0xBF#8 (offset + 3)))))))

end Tests

/-- One round of the loop, undefined where it would read behind the buffer.
`isascii` or `isprint` hold of the bytes up to 0x7F. -/
def textStep (buf : List (BitVec 8)) (len : Nat) (scan : TextScan) : Option TextScan :=
  buf[scan.offset]?.bind fun byte =>
    if PlainText byte then
      some { scan with
        offset := scan.offset + 1
        utf8 := scan.utf8 + 1
        ascii := scan.ascii + 1 }
    else
      let scan :=
        if byte ≤ 0x7F#8 then { scan with ascii := scan.ascii + 1 } else scan
      (twoBytes buf len scan.offset).bind fun two =>
        if two then
          some { scan with
            offset := scan.offset + 2
            utf8 := scan.utf8 + 1
            comp := scan.comp - 1 }
        else (threeBytes buf len scan.offset).bind fun three =>
          if three then
            some { scan with
              offset := scan.offset + 3
              utf8 := scan.utf8 + 1
              comp := scan.comp - 2 }
          else (fourBytes buf len scan.offset).bind fun four =>
            if four then
              some { scan with
                offset := scan.offset + 4
                utf8 := scan.utf8 + 1
                comp := scan.comp - 3 }
            else some { scan with offset := scan.offset + 1 }

/-- The loop.  Every round moves on, so there are at most `len` of them. -/
def textLoop (buf : List (BitVec 8)) (len : Nat) : Nat → TextScan → Option TextScan
  | 0, scan => some scan
  | rounds + 1, scan =>
      if scan.offset < len then
        (textStep buf len scan).bind (textLoop buf len rounds)
      else some scan

/-- A percentage, of type `u32`; a divisor of the type `ssize_t` makes the
division a signed one. -/
def percent (count : Nat) (divisor : Int) : Nat :=
  (BitVec.ofInt 32 (Int.tdiv ((count * 100 % 2 ^ 32 : Nat) : Int) divisor)).toNat

/-- What the percentages say: 2 for UTF-8, 1 for ASCII. -/
def textVerdict (percentUtf8 percentAscii : Nat) : Nat :=
  if percentAscii ≤ percentUtf8 ∧ aflTxtMinPercent ≤ percentUtf8 then 2
  else if aflTxtMinPercent ≤ percentAscii then 1
  else 0

/-- `check_if_text` of an entry of length `len`, with the content of its file
unless it cannot be opened. -/
def checkIfText (len : Nat) (file : Option (List (BitVec 8))) : Option Nat :=
  if len < aflTxtMinLen then some 0
  else
    let len := if maxFile ≤ len then maxFile - 1 else len
    file.elim (some 0) fun content =>
      let comp := min len content.length
      if comp ≠ len then some 0
      else
        (textLoop (content.take len ++ [0#8]) len len
          { offset := 0, ascii := 0, utf8 := 0, comp := comp }).bind fun scan =>
            if scan.comp = 0 then none
            else some (textVerdict (percent scan.utf8 scan.comp)
              (percent scan.ascii len))

/-- A content in pieces: an encoded character wherever one starts that is not
ASCII, else a single byte. -/
inductive Segmented : List (BitVec 8) → List (List (BitVec 8)) → Prop where
  | done : Segmented [] []
  | character {rest : List (BitVec 8)} {pieces : List (List (BitVec 8))}
      (c : Char) (multi : 0x7F < c.toNat) :
      Segmented rest pieces →
      Segmented (encoded c ++ rest) (encoded c :: pieces)
  | single {byte : BitVec 8} {rest : List (BitVec 8)}
      {pieces : List (List (BitVec 8))}
      (none : ∀ c : Char, 0x7F < c.toNat → ¬encoded c <+: byte :: rest) :
      Segmented rest pieces →
      Segmented (byte :: rest) ([byte] :: pieces)

/-- A piece of more than one byte, or of plain text. -/
def countsUtf8 (piece : List (BitVec 8)) : Bool :=
  decide (1 < piece.length) || piece.all fun byte => decide (PlainText byte)

def countsAscii (piece : List (BitVec 8)) : Bool :=
  piece.all fun byte => decide (byte ≤ 0x7F#8)

/-- The scan behind a list of pieces. -/
def TextScan.past (scan : TextScan) (pieces : List (List (BitVec 8))) :
    TextScan :=
  { offset := scan.offset + pieces.flatten.length
    ascii := scan.ascii + pieces.countP countsAscii
    utf8 := scan.utf8 + pieces.countP countsUtf8
    comp := scan.comp - (pieces.flatten.length - pieces.length : Int) }

variable {byte : BitVec 8} {scan : TextScan}

section Reads

variable {content rest : List (BitVec 8)} {offset : Nat}

theorem read_eq (here : content.drop offset = rest) {index : Nat}
    (is : rest[index]? = some byte) :
    (content ++ [0#8])[offset + index]? = some byte := by
  rw [← here, List.getElem?_drop] at is
  obtain ⟨inside, _⟩ := List.getElem?_eq_some_iff.mp is
  rwa [List.getElem?_append_left inside]

theorem left_eq (here : content.drop offset = rest) :
    content.length - offset = rest.length := by
  rw [← here, List.length_drop]

@[simp] theorem shortAnd_some (first second : Bool) :
    shortAnd (some first) (some second) = some (first && second) := by
  cases first <;> rfl

@[simp] theorem shortOr_some (first second : Bool) :
    shortOr (some first) (some second) = some (first || second) := by
  cases first <;> rfl

theorem shortAnd_false (second : Option Bool) :
    shortAnd (some false) second = some false := rfl

theorem shortAnd_true (second : Option Bool) :
    shortAnd (some true) second = second := rfl

section

variable (here : content.drop offset = rest)
include here

theorem between_eq (index : Nat) (is : rest[index]? = some byte) (low high : BitVec 8) :
    between (content ++ [0#8]) low high (offset + index) =
      some (decide (Within low high byte)) := by
  rw [between, read_eq here is, Option.map_some]

theorem equals_eq (index : Nat) (is : rest[index]? = some byte) (value : BitVec 8) :
    equals (content ++ [0#8]) value (offset + index) =
      some (decide (byte = value)) := by
  rw [equals, read_eq here is, Option.map_some]

theorem twoBytes_eq :
    ∃ found, twoBytes (content ++ [0#8]) content.length offset = some found ∧
      (found = true ↔ ∃ b0 b1 tail, rest = b0 :: b1 :: tail ∧ Two b0 b1) := by
  unfold twoBytes
  rw [left_eq here]
  by_cases long : 1 < rest.length
  · obtain ⟨b0, b1, tail, is⟩ : ∃ b0 b1 tail, rest = b0 :: b1 :: tail := by
      rcases rest with _ | ⟨b0, _ | ⟨b1, tail⟩⟩ <;> simp at long ⊢
    subst is
    have first := between_eq here 0 rfl
    have second := between_eq here 1 rfl
    rw [Nat.add_zero] at first
    rw [decide_eq_true long, shortAnd_true, first, second, shortAnd_some]
    refine ⟨_, rfl, ?_⟩
    simp [Two]
  · refine ⟨false, by rw [decide_eq_false long, shortAnd_false], ?_⟩
    refine iff_of_false Bool.false_ne_true ?_
    rintro ⟨b0, b1, tail, is, _⟩
    exact long (by simp [is])

theorem threeBytes_eq :
    ∃ found, threeBytes (content ++ [0#8]) content.length offset = some found ∧
      (found = true ↔ ∃ b0 b1 b2 tail, rest = b0 :: b1 :: b2 :: tail ∧
        Three b0 b1 b2) := by
  unfold threeBytes
  rw [left_eq here]
  by_cases long : 2 < rest.length
  · obtain ⟨b0, b1, b2, tail, is⟩ : ∃ b0 b1 b2 tail,
        rest = b0 :: b1 :: b2 :: tail := by
      rcases rest with _ | ⟨b0, _ | ⟨b1, _ | ⟨b2, tail⟩⟩⟩ <;> simp at long ⊢
    subst is
    have first := between_eq here 0 rfl
    have is := equals_eq here 0 rfl
    have second := between_eq here 1 rfl
    have third := between_eq here 2 rfl
    rw [Nat.add_zero] at first is
    rw [decide_eq_true long, shortAnd_true]
    simp only [first, is, second, third, shortAnd_some, shortOr_some]
    refine ⟨_, rfl, ?_⟩
    simp [Three]
  · refine ⟨false, by rw [decide_eq_false long, shortAnd_false], ?_⟩
    refine iff_of_false Bool.false_ne_true ?_
    rintro ⟨b0, b1, b2, tail, is, _⟩
    exact long (by simp [is])

theorem fourBytes_eq :
    ∃ found, fourBytes (content ++ [0#8]) content.length offset = some found ∧
      (found = true ↔ ∃ b0 b1 b2 b3 tail,
        rest = b0 :: b1 :: b2 :: b3 :: tail ∧ Four b0 b1 b2 b3) := by
  unfold fourBytes
  rw [left_eq here]
  by_cases long : 3 < rest.length
  · obtain ⟨b0, b1, b2, b3, tail, is⟩ : ∃ b0 b1 b2 b3 tail,
        rest = b0 :: b1 :: b2 :: b3 :: tail := by
      rcases rest with _ | ⟨b0, _ | ⟨b1, _ | ⟨b2, _ | ⟨b3, tail⟩⟩⟩⟩ <;>
        simp at long ⊢
    subst is
    have first := between_eq here 0 rfl
    have is := equals_eq here 0 rfl
    have second := between_eq here 1 rfl
    have third := between_eq here 2 rfl
    have fourth := between_eq here 3 rfl
    rw [Nat.add_zero] at first is
    rw [decide_eq_true long, shortAnd_true]
    simp only [first, is, second, third, fourth, shortAnd_some, shortOr_some]
    refine ⟨_, rfl, ?_⟩
    simp [Four]
  · refine ⟨false, by rw [decide_eq_false long, shortAnd_false], ?_⟩
    refine iff_of_false Bool.false_ne_true ?_
    rintro ⟨b0, b1, b2, b3, tail, is, _⟩
    exact long (by simp [is])

end

theorem not_plainText (lead : 0xC2#8 ≤ byte) : ¬PlainText byte ∧ ¬byte ≤ 0x7F#8 := by
  revert byte
  decide

theorem plainText_ascii (plain : PlainText byte) : byte ≤ 0x7F#8 := by
  revert byte
  decide

/-- A round whose reads succeed. -/
theorem textStep_eq {buf : List (BitVec 8)} {len : Nat} {two three four : Bool}
    (read : buf[scan.offset]? = some byte)
    (isTwo : twoBytes buf len scan.offset = some two)
    (isThree : threeBytes buf len scan.offset = some three)
    (isFour : fourBytes buf len scan.offset = some four) :
    textStep buf len scan = some (
      if PlainText byte then
        { scan with
          offset := scan.offset + 1
          utf8 := scan.utf8 + 1
          ascii := scan.ascii + 1 }
      else
        let ascii := if byte ≤ 0x7F#8 then scan.ascii + 1 else scan.ascii
        if two then
          ⟨scan.offset + 2, ascii, scan.utf8 + 1, scan.comp - 1⟩
        else if three then
          ⟨scan.offset + 3, ascii, scan.utf8 + 1, scan.comp - 2⟩
        else if four then
          ⟨scan.offset + 4, ascii, scan.utf8 + 1, scan.comp - 3⟩
        else ⟨scan.offset + 1, ascii, scan.utf8, scan.comp⟩) := by
  unfold textStep
  rw [read, Option.bind_some]
  by_cases plain : PlainText byte
  · rw [if_pos plain, if_pos plain]
  · rw [if_neg plain, if_neg plain]
    by_cases low : byte ≤ 0x7F#8 <;>
      simp only [low, if_true, if_false, isTwo, isThree, isFour, Option.bind_some] <;>
      cases two <;> cases three <;> cases four <;> rfl

theorem textStep_character (c : Char) (multi : 0x7F < c.toNat)
    (here : content.drop scan.offset = encoded c ++ rest) :
    textStep (content ++ [0#8]) content.length scan =
      some (scan.past [encoded c]) := by
  obtain ⟨two, isTwo, foundTwo⟩ := twoBytes_eq here
  obtain ⟨three, isThree, foundThree⟩ := threeBytes_eq here
  obtain ⟨four, isFour, foundFour⟩ := fourBytes_eq here
  have reads : ∀ {byte : BitVec 8} {tail : List (BitVec 8)}, encoded c = byte :: tail →
      (content ++ [0#8])[scan.offset]? = some byte := by
    intro byte tail is
    have first : (encoded c ++ rest)[0]? = some byte := by rw [is]; rfl
    exact read_eq here first
  rcases encoded_multi c multi with ⟨b0, b1, is, sequence⟩ |
    ⟨b0, b1, b2, is, sequence⟩ | ⟨b0, b1, b2, b3, is, sequence⟩
  · have lead := not_plainText sequence.lead.1
    have found : two = true := foundTwo.mpr ⟨b0, b1, rest, by simp [is], sequence⟩
    rw [textStep_eq (reads is) isTwo isThree isFour]
    simp [lead, found, is, TextScan.past, countsAscii, countsUtf8]
  · have low := sequence.lead.1
    have lead := not_plainText (by bv_omega : 0xC2#8 ≤ b0)
    have found : three = true :=
      foundThree.mpr ⟨b0, b1, b2, rest, by simp [is], sequence⟩
    have notTwo : two = false := by
      refine Bool.eq_false_iff.mpr fun isTwo => ?_
      obtain ⟨c0, _, _, same, other⟩ := foundTwo.mp isTwo
      have high := other.lead.2
      have first : b0 = c0 := by simpa [is] using congrArg List.head? same
      bv_omega
    rw [textStep_eq (reads is) isTwo isThree isFour]
    simp [lead, found, notTwo, is, TextScan.past, countsAscii, countsUtf8]
  · have low := sequence.lead.1
    have lead := not_plainText (by bv_omega : 0xC2#8 ≤ b0)
    have found : four = true :=
      foundFour.mpr ⟨b0, b1, b2, b3, rest, by simp [is], sequence⟩
    have notTwo : two = false := by
      refine Bool.eq_false_iff.mpr fun isTwo => ?_
      obtain ⟨c0, _, _, same, other⟩ := foundTwo.mp isTwo
      have high := other.lead.2
      have first : b0 = c0 := by simpa [is] using congrArg List.head? same
      bv_omega
    have notThree : three = false := by
      refine Bool.eq_false_iff.mpr fun isThree => ?_
      obtain ⟨c0, _, _, _, same, other⟩ := foundThree.mp isThree
      have high := other.lead.2
      have first : b0 = c0 := by simpa [is] using congrArg List.head? same
      bv_omega
    rw [textStep_eq (reads is) isTwo isThree isFour]
    simp [lead, found, notTwo, notThree, is, TextScan.past, countsAscii, countsUtf8]

theorem textStep_single (none : ∀ c : Char, 0x7F < c.toNat → ¬encoded c <+: byte :: rest)
    (here : content.drop scan.offset = byte :: rest) :
    textStep (content ++ [0#8]) content.length scan = some (scan.past [[byte]]) := by
  obtain ⟨two, isTwo, foundTwo⟩ := twoBytes_eq here
  obtain ⟨three, isThree, foundThree⟩ := threeBytes_eq here
  obtain ⟨four, isFour, foundFour⟩ := fourBytes_eq here
  have read : (content ++ [0#8])[scan.offset]? = some byte :=
    read_eq here (rfl : (byte :: rest)[0]? = some byte)
  have absent : ∀ sequence : List (BitVec 8), 1 < sequence.length →
      sequence <+: byte :: rest → ¬∃ c, encoded c = sequence := by
    intro sequence long starts ⟨c, is⟩
    exact none c (multi_of_length (is ▸ long)) (is ▸ starts)
  have notTwo : two = false := by
    refine Bool.eq_false_iff.mpr fun found => ?_
    obtain ⟨b0, b1, tail, same, is⟩ := foundTwo.mp found
    exact absent [b0, b1] (by simp) ⟨tail, same.symm⟩ (two_iff.mpr is)
  have notThree : three = false := by
    refine Bool.eq_false_iff.mpr fun found => ?_
    obtain ⟨b0, b1, b2, tail, same, is⟩ := foundThree.mp found
    exact absent [b0, b1, b2] (by simp) ⟨tail, same.symm⟩ (three_iff.mpr is)
  have notFour : four = false := by
    refine Bool.eq_false_iff.mpr fun found => ?_
    obtain ⟨b0, b1, b2, b3, tail, same, is⟩ := foundFour.mp found
    exact absent [b0, b1, b2, b3] (by simp) ⟨tail, same.symm⟩
      (four_iff.mpr is)
  rw [textStep_eq read isTwo isThree isFour]
  by_cases plain : PlainText byte
  · simp [plain, plainText_ascii plain, TextScan.past, countsAscii, countsUtf8]
  · by_cases low : byte ≤ 0x7F#8 <;>
      simp [plain, low, notTwo, notThree, notFour, TextScan.past, countsAscii,
        countsUtf8]

end Reads

/-- A number of rounds, each with the offset still below `len`. -/
inductive TextSteps (buf : List (BitVec 8)) (len : Nat) :
    Nat → TextScan → TextScan → Prop where
  | refl (scan : TextScan) : TextSteps buf len 0 scan scan
  | step {rounds : Nat} {scan next last : TextScan} :
      scan.offset < len → textStep buf len scan = some next →
      TextSteps buf len rounds next last →
      TextSteps buf len (rounds + 1) scan last

theorem textLoop_of_steps {buf : List (BitVec 8)} {len rounds : Nat} {last : TextScan}
    (steps : TextSteps buf len rounds scan last) (ended : ¬last.offset < len)
    {limit : Nat} (fits : rounds ≤ limit) :
    textLoop buf len limit scan = some last := by
  induction steps generalizing limit with
  | refl scan =>
      cases limit with
      | zero => rfl
      | succ limit => rw [textLoop, if_neg ended]
  | step inside stepped steps induction =>
      cases limit with
      | zero => exact absurd fits (Nat.not_succ_le_zero _)
      | succ limit =>
          rw [textLoop, if_pos inside, stepped, Option.bind_some]
          exact induction ended (Nat.le_of_succ_le_succ fits)

theorem TextScan.past_nil (scan : TextScan) : scan.past [] = scan := by
  simp [TextScan.past]

theorem TextScan.past_cons (scan : TextScan) (piece : List (BitVec 8))
    (pieces : List (List (BitVec 8))) :
    (scan.past [piece]).past pieces = scan.past (piece :: pieces) := by
  simp only [TextScan.past, List.flatten_cons, List.length_append,
    List.countP_cons, List.length_cons]
  simp
  omega

/-- The scan makes one round for each piece. -/
theorem textSteps_of_segmented {content rest : List (BitVec 8)}
    {pieces : List (List (BitVec 8))} (segmented : Segmented rest pieces)
    (here : content.drop scan.offset = rest) :
    TextSteps (content ++ [0#8]) content.length pieces.length scan
      (scan.past pieces) := by
  have inside : ∀ {next : List (BitVec 8)} {scan : TextScan},
      content.drop scan.offset = next → next ≠ [] →
      scan.offset < content.length := by
    intro next scan here some
    by_contra beyond
    rw [List.drop_eq_nil_of_le (Nat.not_lt.mp beyond)] at here
    exact some here.symm
  have behind : ∀ {piece more : List (BitVec 8)} {scan : TextScan},
      content.drop scan.offset = piece ++ more →
      content.drop (scan.past [piece]).offset = more := by
    intro piece more scan here
    have length : (scan.past [piece]).offset =
        scan.offset + piece.length := by simp [TextScan.past]
    rw [length, ← List.drop_drop, here, List.drop_left]
  induction segmented generalizing scan with
  | done =>
      rw [TextScan.past_nil]
      exact .refl scan
  | character c multi segmented induction =>
      rw [← TextScan.past_cons]
      have some := List.append_ne_nil_of_left_ne_nil (encoded_ne_nil c)
      exact .step (inside here (some _)) (textStep_character c multi here)
        (induction (behind here))
  | single none segmented induction =>
      rw [← TextScan.past_cons]
      exact .step (inside here (List.cons_ne_nil _ _))
        (textStep_single none here) (induction (behind here))

namespace Segmented

variable {content : List (BitVec 8)} {pieces : List (List (BitVec 8))}

section

variable (segmented : Segmented content pieces)
include segmented

theorem flatten : pieces.flatten = content := by
  induction segmented with
  | done => rfl
  | character c multi segmented induction =>
      rw [List.flatten_cons, induction]
  | single none segmented induction =>
      rw [List.flatten_cons, induction]
      rfl

theorem length_le : pieces.length ≤ content.length := by
  induction segmented with
  | done => exact Nat.le_refl 0
  | character c multi segmented induction =>
      have some := List.length_pos_iff.mpr (encoded_ne_nil c)
      rw [List.length_cons, List.length_append]
      omega
  | single none segmented induction => exact Nat.succ_le_succ induction

theorem pos (some : content ≠ []) : 1 ≤ pieces.length := by
  cases segmented with
  | done => exact absurd rfl some
  | character c multi segmented => exact Nat.succ_le_succ (Nat.zero_le _)
  | single none segmented => exact Nat.succ_le_succ (Nat.zero_le _)

end

theorem total (content : List (BitVec 8)) : ∃ pieces, Segmented content pieces := by
  induction length : content.length using Nat.strongRecOn
    generalizing content with
  | ind size induction =>
      by_cases starts : ∃ c : Char, 0x7F < c.toNat ∧ encoded c <+: content
      · obtain ⟨c, multi, rest, is⟩ := starts
        have some := List.length_pos_iff.mpr (encoded_ne_nil c)
        have shorter : rest.length < size := by
          rw [← length, ← is, List.length_append]
          omega
        obtain ⟨pieces, segmented⟩ := induction _ shorter rest rfl
        exact ⟨_, is ▸ segmented.character c multi⟩
      · cases content with
        | nil => exact ⟨[], .done⟩
        | cons byte rest =>
            have shorter : rest.length < size := by
              rw [← length]
              exact Nat.lt_succ_self _
            obtain ⟨pieces, segmented⟩ := induction _ shorter rest rfl
            exact ⟨_, .single (fun c multi prefixed =>
              starts ⟨c, multi, prefixed⟩) segmented⟩

end Segmented

/-- A piece of text: a plain byte, or a character that is not ASCII. -/
def TextPart (part : List (BitVec 8)) : Prop :=
  (∃ byte, PlainText byte ∧ part = [byte]) ∨
    ∃ c : Char, 0x7F < c.toNat ∧ part = encoded c

/-- A content of tabs, line ends, printable ASCII and longer sequences. -/
def TextOnly (content : List (BitVec 8)) : Prop :=
  ∃ parts : List (List (BitVec 8)), parts.flatten = content ∧
    ∀ part ∈ parts, TextPart part

theorem segmented_of_parts {parts : List (List (BitVec 8))}
    (text : ∀ part ∈ parts, TextPart part) :
    Segmented parts.flatten parts := by
  induction parts with
  | nil => exact .done
  | cons part parts induction =>
      have rest := induction fun part member =>
        text part (List.mem_cons_of_mem _ member)
      rw [List.flatten_cons]
      rcases text part List.mem_cons_self with
        ⟨byte, plain, is⟩ | ⟨c, multi, is⟩
      · subst is
        refine .single (fun c multi prefixed => ?_) rest
        obtain ⟨lead, tail, isLead, high⟩ := encoded_lead c multi
        rw [isLead] at prefixed
        obtain ⟨same, _⟩ := List.cons_prefix_cons.mp prefixed
        exact (not_plainText high).1 (same ▸ plain)
      · subst is
        exact rest.character c multi

theorem countsUtf8_of_part {part : List (BitVec 8)} (text : TextPart part) :
    countsUtf8 part = true := by
  rcases text with ⟨byte, plain, is⟩ | ⟨c, multi, is⟩
  · simp [countsUtf8, is, plain]
  · rcases encoded_multi c multi with ⟨_, _, sequence, _⟩ |
      ⟨_, _, _, sequence, _⟩ | ⟨_, _, _, _, sequence, _⟩ <;>
      simp [countsUtf8, is, sequence]

theorem percent_eq {count divisor : Nat} (small : count < maxFile) :
    percent count divisor = count * 100 / divisor := by
  have bounded : count < 1024 * 1024 := by simpa [maxFile] using small
  have product : count * 100 % 2 ^ 32 = count * 100 := Nat.mod_eq_of_lt (by omega)
  have quotient : count * 100 / divisor < 2 ^ 32 :=
    Nat.lt_of_le_of_lt (Nat.div_le_self _ _) (by omega)
  rw [percent, product, ← Int.ofNat_tdiv, BitVec.ofInt_natCast,
    BitVec.toNat_ofNat, Nat.mod_eq_of_lt quotient]

def TextScan.start (len : Nat) : TextScan :=
  { offset := 0, ascii := 0, utf8 := 0, comp := len }

theorem start_past {content : List (BitVec 8)}
    {pieces : List (List (BitVec 8))}
    (segmented : Segmented content pieces) :
    (TextScan.start content.length).past pieces =
      { offset := content.length
        ascii := pieces.countP countsAscii
        utf8 := pieces.countP countsUtf8
        comp := pieces.length } := by
  simp only [TextScan.past, TextScan.start, segmented.flatten, Nat.zero_add]
  congr 1
  omega

theorem scan_of_segmented {content : List (BitVec 8)}
    {pieces : List (List (BitVec 8))}
    (segmented : Segmented content pieces) :
    TextSteps (content ++ [0#8]) content.length pieces.length
      (TextScan.start content.length)
      { offset := content.length
        ascii := pieces.countP countsAscii
        utf8 := pieces.countP countsUtf8
        comp := pieces.length } := by
  rw [← start_past segmented]
  exact textSteps_of_segmented segmented rfl

section

variable {content : List (BitVec 8)} (long : aflTxtMinLen ≤ content.length)
include long

theorem ne_nil_of_long : content ≠ [] := by
  intro empty
  rw [empty] at long
  exact absurd long (by decide)

/-- The result of `check_if_text` is read off the pieces. -/
theorem checkIfText_of_segmented {pieces : List (List (BitVec 8))}
    (short : content.length < maxFile) (segmented : Segmented content pieces) :
    checkIfText content.length (some content) = some (textVerdict
      (percent (pieces.countP countsUtf8) pieces.length)
      (percent (pieces.countP countsAscii) content.length)) := by
  have steps := scan_of_segmented segmented
  have looped := textLoop_of_steps steps (Nat.lt_irrefl _)
    segmented.length_le
  have nonempty := ne_nil_of_long long
  have divisor : (pieces.length : Int) ≠ 0 := by
    have positive := segmented.pos nonempty
    omega
  rw [checkIfText, if_neg (Nat.not_lt.mpr long), if_neg (Nat.not_le.mpr short)]
  simp only [Option.elim_some, Nat.min_self, ne_eq, not_true, if_false,
    List.take_length]
  have run : textLoop (content ++ [0#8]) content.length content.length
      { offset := 0, ascii := 0, utf8 := 0, comp := content.length } = _ :=
    looped
  rw [run, Option.bind_some, if_neg divisor]

theorem checkIfText_textOnly (short : content.length < maxFile)
    (text : TextOnly content) :
    checkIfText content.length (some content) = some 2 := by
  obtain ⟨parts, is, all⟩ := text
  have segmented : Segmented content parts := is ▸ segmented_of_parts all
  have nonempty := ne_nil_of_long long
  have positive := segmented.pos nonempty
  have fewer := segmented.length_le
  have utf8 : parts.countP countsUtf8 = parts.length :=
    List.countP_eq_length.mpr fun part member =>
      countsUtf8_of_part (all part member)
  have ascii : parts.countP countsAscii ≤ content.length :=
    Nat.le_trans List.countP_le_length fewer
  have whole : percent parts.length parts.length = 100 := by
    rw [percent_eq (by omega), Nat.mul_div_cancel_left 100 positive]
  have most : percent (parts.countP countsAscii) content.length ≤ 100 := by
    rw [percent_eq (by omega)]
    exact Nat.div_le_of_le_mul (Nat.mul_le_mul_right 100 ascii)
  rw [checkIfText_of_segmented long short segmented, utf8, whole, textVerdict,
    if_pos ⟨most, by decide⟩]

end

/-- The scan reads nothing behind the terminator, makes one step for each piece
of the content, and divides by their number; text is told as such. -/
theorem checkIfText_scans (content : List (BitVec 8))
    (long : aflTxtMinLen ≤ content.length)
    (short : content.length < maxFile) :
    ∃ pieces last, Segmented content pieces ∧
      TextSteps (content ++ [0#8]) content.length pieces.length
        (TextScan.start content.length) last ∧
      last.offset = content.length ∧ last.comp = pieces.length ∧
      1 ≤ pieces.length ∧ last.utf8 = pieces.countP countsUtf8 ∧
      last.ascii = pieces.countP countsAscii ∧
      checkIfText content.length (some content) = some (textVerdict
        (percent last.utf8 last.comp) (percent last.ascii content.length)) ∧
      (TextOnly content → checkIfText content.length (some content) = some 2) := by
  obtain ⟨pieces, segmented⟩ := Segmented.total content
  have steps := scan_of_segmented segmented
  have nonempty := ne_nil_of_long long
  exact ⟨pieces, _, segmented, steps, rfl, rfl, segmented.pos nonempty, rfl,
    rfl, checkIfText_of_segmented long short segmented,
    checkIfText_textOnly long short⟩

theorem checkIfText_scans_letters :
    checkIfText 12 (some (List.replicate 12 0x61#8)) = some 2 := by
  obtain ⟨_, _, _, _, _, _, _, _, _, _, text⟩ :=
    checkIfText_scans (List.replicate 12 0x61#8) (by decide) (by decide)
  refine text ⟨List.replicate 12 [0x61#8], rfl, fun part member => ?_⟩
  exact .inl ⟨0x61#8, by decide, List.eq_of_mem_replicate member⟩

end AFLPlusPlus
