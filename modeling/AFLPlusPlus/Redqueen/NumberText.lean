import AFLPlusPlus.Redqueen.CmpEncoding

/-!
# The text of a number that is replaced

Where `cmp_extend_encoding` finds the text of a number, it puts an input
together in a buffer that is used again and again: what stands in front of the
number, the digits of the other number, and what stands behind.  The input is
executed with the length of the test case, whatever the lengths of both numbers.
-/

namespace AFLPlusPlus.Redqueen

/-- A digit behind the new number makes way for a blank. -/
def separated : List (BitVec 8) → List (BitVec 8)
  | [] => []
  | first :: rest => (if isDigit first then 32#8 else first) :: rest

theorem separated_eq_iff (tail : List (BitVec 8)) :
    separated tail = tail ↔ ∀ first ∈ tail.head?, isDigit first = false := by
  cases tail with
  | nil =>
      refine ⟨fun _ first isFirst => ?_, fun _ => rfl⟩
      cases isFirst
  | cons first rest =>
      rw [separated, List.cons_eq_cons, List.head?_cons]
      cases digit : isDigit first with
      | false =>
          refine ⟨fun _ here isHere => ?_, fun _ => ⟨rfl, rfl⟩⟩
          cases isHere
          exact digit
      | true =>
          constructor
          · intro same
            rw [← show (32#8 : BitVec 8) = first from same.1] at digit
            exact absurd digit (by decide)
          · intro others
            rw [others first rfl] at digit
            cases digit

namespace ItsEnvironment

/-- `new_buf`, which `afl_realloc` returns as it was left. -/
def numberInput (len idx oldLen : Nat) (digits : List (BitVec 8))
    (buf scratch : Buffer) : Buffer :=
  let copied :=
    ((scratch.storeBytes 0 (buf.loadBytes 0 idx)).storeBytes idx
      digits).storeBytes (idx + digits.length)
      (buf.loadBytes (idx + oldLen) (len - idx - oldLen))
  if isDigit (copied (idx + digits.length)) then
    copied.storeBytes (idx + digits.length) [32#8]
  else copied

variable (afl : ItsEnvironment)

/-- The number that the transformation replaces: its length, with the digits of
the new one. -/
def replacedNumber (h : CmpArguments) (buf : Buffer) :
    Option (Nat × List (BitVec 8)) :=
  let text := buf.loadBytes h.idx (afl.len - h.idx)
  if afl.isAscii then
    match strntoll text with
    | some (num, oldLen) =>
        if num = h.pattern ∨ num = 0 then some (oldLen, printSigned h.repl)
        else none
    | none =>
        match strntoull text with
        | some (unum, oldLen) =>
            if unum = h.pattern ∨ unum = 0 then
              some (oldLen, printUnsigned h.repl)
            else none
        | none => none
  else none

variable {afl} {h : CmpArguments} {buf : Buffer} {oldLen : Nat}
  {digits : List (BitVec 8)}

theorem oldLen_le (replaced : afl.replacedNumber h buf = some (oldLen, digits)) :
    oldLen ≤ afl.len - h.idx := by
  have length := Buffer.length_loadBytes buf h.idx (afl.len - h.idx)
  unfold replacedNumber at replaced
  rw [Option.ite_none_right_eq_some] at replaced
  cases signed : strntoll (buf.loadBytes h.idx (afl.len - h.idx)) with
  | some number =>
      rw [signed, Option.ite_none_right_eq_some] at replaced
      cases replaced.2.2
      exact length ▸ strntoll_length signed
  | none =>
      rw [signed] at replaced
      cases unsigned : strntoull (buf.loadBytes h.idx (afl.len - h.idx)) with
      | some number =>
          rw [unsigned, Option.ite_none_right_eq_some] at replaced
          cases replaced.2.2
          exact length ▸ strntoull_length unsigned
      | none =>
          rw [unsigned] at replaced
          cases replaced.2

theorem replaceText_run (h : CmpArguments) (its : ItsState) :
    (afl.replaceText h).run its =
      match afl.replacedNumber h its.buf with
      | some (oldLen, digits) => (afl.replaceNumber h.idx oldLen digits).run its
      | none => (some (), its) := by
  change (if afl.isAscii then _ else pure () : Its Unit).run its = _
  unfold replacedNumber
  cases afl.isAscii with
  | false => rfl
  | true =>
      rw [if_pos rfl, if_pos rfl]
      cases strntoll (its.buf.loadBytes h.idx (afl.len - h.idx)) with
      | some number =>
          change (if _ then _ else _ : Its Unit).run its = _
          split
          · rename_i fits
            simp only [fits]
            rfl
          · rename_i other
            simp only [other]
            rfl
      | none =>
          cases strntoull (its.buf.loadBytes h.idx (afl.len - h.idx)) with
          | some number =>
              change (if _ then _ else _ : Its Unit).run its = _
              split
              · rename_i fits
                simp only [fits]
                rfl
              · rename_i other
                simp only [other]
                rfl
          | none => rfl

/-- The input from its beginning to the end of what is copied. -/
theorem numberInput_loadBytes (len idx oldLen : Nat) (digits : List (BitVec 8))
    (buf scratch : Buffer) :
    (numberInput len idx oldLen digits buf scratch).loadBytes 0
        (idx + digits.length + (len - idx - oldLen)) =
      buf.loadBytes 0 idx ++ digits ++
        separated (buf.loadBytes (idx + oldLen) (len - idx - oldLen)) := by
  let start := (scratch.storeBytes 0 (buf.loadBytes 0 idx)).storeBytes idx digits
  have starts : start.loadBytes 0 (idx + digits.length) =
      buf.loadBytes 0 idx ++ digits := by
    have front := Buffer.loadBytes_storeBytes_end scratch 0 (buf.loadBytes 0 idx)
    rw [Buffer.length_loadBytes, Nat.zero_add] at front
    calc
      start.loadBytes 0 (idx + digits.length) = _ ++ digits :=
        Buffer.loadBytes_storeBytes_end _ idx digits
      _ = ([] ++ buf.loadBytes 0 idx) ++ digits := by
        rw [front]
        rfl
  have length := Buffer.length_loadBytes buf (idx + oldLen) (len - idx - oldLen)
  unfold numberInput
  cases tail : buf.loadBytes (idx + oldLen) (len - idx - oldLen) with
  | nil =>
      rw [tail] at length
      rw [← show 0 = len - idx - oldLen from length, Nat.add_zero, separated,
        List.append_nil, ← starts]
      have nothing : start.storeBytes (idx + digits.length) [] = start := by
        funext here
        rw [Buffer.storeBytes, List.getElem?_nil]
        exact ite_self _
      change (if _ then _ else start.storeBytes _ []).loadBytes _ _ = _
      rw [nothing]
      split
      · exact Buffer.loadBytes_storeBytes_before start _ _
      · rfl
  | cons first rest =>
      have isFirst : start.storeBytes (idx + digits.length) (first :: rest)
          (idx + digits.length) = first :=
        Buffer.spells_storeBytes start _ (first :: rest) 0 first rfl
      have copied : ∀ other, (start.storeBytes (idx + digits.length)
          (other :: rest)).loadBytes 0
            (idx + digits.length + (len - idx - oldLen)) =
          buf.loadBytes 0 idx ++ digits ++ other :: rest := by
        intro other
        rw [tail] at length
        rw [← length, ← starts]
        exact Buffer.loadBytes_storeBytes_end start _ (other :: rest)
      change (if isDigit (start.storeBytes _ (first :: rest) _) then
        (start.storeBytes _ (first :: rest)).storeBytes _ [32#8]
        else _).loadBytes _ _ = _
      rw [isFirst, Buffer.storeBytes_head, separated]
      split
      · exact copied 32#8
      · exact copied first

/-- The input is executed with the length of the test case.  It is the test case
with the new number exactly if that has as many digits as the old one and no
digit stands behind. -/
theorem replaceText_executes_iff (afl : ItsEnvironment) (h : CmpArguments)
    (its : ItsState) {oldLen : Nat} {digits : List (BitVec 8)}
    (inside : h.idx < afl.len)
    (replaced : afl.replacedNumber h its.buf = some (oldLen, digits)) :
    let input := numberInput afl.len h.idx oldLen digits its.buf its.outScratch
    let tail := its.buf.loadBytes (h.idx + oldLen) (afl.len - h.idx - oldLen)
    (afl.replaceText h).run its =
        (afl.itsFuzz input .number h.idx digits.length).run
          { its with outScratch := input } ∧
      (input.loadBytes 0 afl.len = its.buf.loadBytes 0 h.idx ++ digits ++ tail ↔
        digits.length = oldLen ∧ ∀ first ∈ tail.head?, isDigit first = false) := by
  intro input tail
  have bounded := oldLen_le replaced
  refine ⟨?_, ?_⟩
  · rw [replaceText_run, replaced]
    rfl
  · have loaded := numberInput_loadBytes afl.len h.idx oldLen digits its.buf
      its.outScratch
    rw [← separated_eq_iff]
    constructor
    · intro executed
      have length := congrArg List.length executed
      simp only [List.length_append, Buffer.length_loadBytes, tail] at length
      have same : digits.length = oldLen := by omega
      refine ⟨same, ?_⟩
      rw [show h.idx + digits.length + (afl.len - h.idx - oldLen) = afl.len by
        omega] at loaded
      exact List.append_cancel_left (loaded.symm.trans executed)
    · rintro ⟨same, separates⟩
      rw [show h.idx + digits.length + (afl.len - h.idx - oldLen) = afl.len by
        omega] at loaded
      exact loaded.trans (by rw [separates])

/-- The test case `10;`, of which the number is a value of a comparison. -/
def numberCase : ItsEnvironment where
  len := 3
  orig := Buffer.storeBytes (fun _ => 0#8) 0 [49#8, 48#8, 59#8]
  isAscii := true
  cmplogEnableTransform := true
  cmplogEnableArith := false
  lvl := lvl3
  outcome := fun _ _ => .nothing
  float := ⟨id, id, id, id, fun value => value.setWidth 32⟩
  unwritten := fun _ _ => 0#8

/-- The comparison of the number with another one. -/
def numberArguments (repl : BitVec 64) : CmpArguments where
  shape := 7
  pattern := 10
  repl
  oPattern := 10
  changedVal := repl
  attr := isEqual
  idx := 0
  taintLen := 3
  doReverse := true

/-- The state before the replacement, with one byte all over the buffer that is
used again. -/
def numberState (byte : BitVec 8) : ItsState where
  buf := numberCase.orig
  cbuf := numberCase.orig
  outScratch := fun _ => byte
  status := 0
  execs := 0
  finds := []

theorem replacedNumber_numberCase :
    numberCase.replacedNumber (numberArguments 5) numberCase.orig = some (2, [53#8]) ∧
      numberCase.replacedNumber (numberArguments 77) numberCase.orig =
        some (2, [55#8, 55#8]) := by
  decide

theorem replaceText_executes_iff_two :
    (numberInput 3 0 2 [55#8, 55#8] numberCase.orig fun _ => 65#8).loadBytes 0
          3 = [55#8, 55#8, 59#8] ↔
      [55#8, 55#8].length = 2 ∧ ∀ first ∈ [59#8].head?, isDigit first = false :=
  (replaceText_executes_iff numberCase (numberArguments 77) (numberState 65#8)
    (show 0 < 3 by decide) replacedNumber_numberCase.2).2

/-- With a number of one digit for one of two the last byte that is executed is
left from an earlier input. -/
theorem replaceText_leftover :
    numberCase.replacedNumber (numberArguments 5) numberCase.orig = some (2, [53#8]) ∧
      ∀ byte,
        (numberCase.replaceText (numberArguments 5)).run (numberState byte) =
            (numberCase.itsFuzz (numberInput 3 0 2 [53#8] numberCase.orig
              (numberState byte).outScratch) .number 0 1).run
                { numberState byte with
                  outScratch := numberInput 3 0 2 [53#8] numberCase.orig
                    (numberState byte).outScratch } ∧
          (numberInput 3 0 2 [53#8] numberCase.orig
            (numberState byte).outScratch).loadBytes 0 numberCase.len =
              [53#8, 59#8, byte] ∧
          [53#8, 59#8, byte] ≠ numberCase.orig.loadBytes 0 0 ++ [53#8] ++
            numberCase.orig.loadBytes 2 1 := by
  refine ⟨replacedNumber_numberCase.1, ?_⟩
  intro byte
  refine ⟨?_, rfl, ?_⟩
  · rw [replaceText_run, show numberCase.replacedNumber (numberArguments 5)
      (numberState byte).buf = _ from replacedNumber_numberCase.1]
    rfl
  · intro same
    exact absurd (congrArg List.length same)
      (show (3 : Nat) ≠ 2 by decide)

end ItsEnvironment

end AFLPlusPlus.Redqueen
