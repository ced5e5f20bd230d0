import AFLPlusPlus.Dictionary.LoadExtras
import AFLPlusPlus.Support.Regions

/-!
# The buffer of a token

`load_extras_file` allocates as many bytes as there are between the quotes and
stores what it decodes there.  `storeValue` is the loop of `copyValue` with that
buffer; `Spelled` is what a value may look like for a given token.
-/

namespace AFLPlusPlus.Dictionary

/-- The loop over the value with the buffer and `klen`, by which `wptr` is
behind the start of the buffer.  A store behind the end is an error. -/
def storeValue : Nat → Text → Text → Nat → Option (Except Unit (Text × Nat))
  | 0, _, _, _ => none
  | _ + 1, [], buffer, klen => some (.ok (buffer, klen))
  | fuel + 1, c :: rest, buffer, klen =>
      if NonPrintable c then storeValue fuel (c :: rest) buffer klen
      else if c = 92#8 then
        match escape rest with
        | some (byte, later) =>
            (Region.write buffer klen [byte]).elim (some (.error ()))
              fun buffer => storeValue fuel later buffer (klen + 1)
        | none => storeValue fuel rest buffer klen
      else
        (Region.write buffer klen [c]).elim (some (.error ()))
          fun buffer => storeValue fuel rest buffer (klen + 1)

/-- How a loop over the buffer goes on after the token has been copied. -/
def Stores (buffer : Text) (copied : Option Text)
    (stored : Option (Except Unit (Text × Nat))) : Prop :=
  (copied = none ∧ stored = none) ∨
    ∃ token out, copied = some token ∧ stored = some (.ok (out, token.length)) ∧
      out.length = buffer.length ∧ out.take token.length = token

/-- A buffer with a place for every byte that is left is never overrun, and has
the token at its start. -/
theorem storeValue_stores (fuel : Nat) {value buffer : Text} {klen : Nat}
    (room : klen + value.length ≤ buffer.length) :
    Stores buffer (copyValue fuel value (buffer.take klen))
      (storeValue fuel value buffer klen) := by
  induction fuel generalizing value buffer klen with
  | zero => exact .inl ⟨rfl, rfl⟩
  | succ fuel induction =>
      -- one byte is stored and a shorter value is left
      have next : ∀ (byte : BitVec 8) (later : Text),
          klen + 1 + later.length ≤ buffer.length →
          Stores buffer (copyValue fuel later (buffer.take klen ++ [byte]))
            ((Region.write buffer klen [byte]).elim (some (.error ()))
              fun buffer => storeValue fuel later buffer (klen + 1)) := by
        intro byte later enough
        have inside : klen + [byte].length ≤ buffer.length := by
          rw [List.length_singleton]
          omega
        have length := Region.length_splice inside
        have seen := @Region.take_splice_end _ buffer [byte] klen
          (Nat.le_of_add_right_le inside)
        rw [Region.write_eq inside, ← seen]
        have stores := @induction later (Region.splice buffer klen [byte])
          (klen + 1) (by omega)
        unfold Stores at stores ⊢
        rwa [length] at stores
      cases value with
      | nil =>
          rw [List.length_nil, Nat.add_zero] at room
          have length := List.length_take_of_le room
          refine .inr ⟨buffer.take klen, buffer, rfl, ?_, rfl, ?_⟩
          · rw [storeValue, length]
          · rw [length]
      | cons c rest =>
          rw [List.length_cons] at room
          rw [copyValue, storeValue]
          by_cases unprintable : NonPrintable c
          · rw [if_pos unprintable, if_pos unprintable]
            exact induction (by rwa [List.length_cons])
          rw [if_neg unprintable, if_neg unprintable]
          by_cases backslash : c = 92#8
          · rw [if_pos backslash, if_pos backslash]
            cases escaped : escape rest with
            | none => exact induction (by omega)
            | some found =>
                obtain ⟨byte, later⟩ := found
                have shorter := (escape_some escaped).1
                exact next byte later (by omega)
          · rw [if_neg backslash, if_neg backslash]
            exact next c rest (by omega)

def isLiteral (c : BitVec 8) : Bool := 32#8 ≤ c ∧ c ≤ 126#8 ∧ c ≠ 34#8 ∧ c ≠ 92#8

/-- The ways to write a byte between the quotes: as it is, or behind a
backslash. -/
inductive Written : BitVec 8 → Text → Prop where
  | literal {c : BitVec 8} (printable : isLiteral c = true) : Written c [c]
  | hex {hi lo : BitVec 8} (high : isXDigit hi = true)
      (low : isXDigit lo = true) :
      Written (hexValue hi <<< 4 ||| hexValue lo) [92#8, 120#8, hi, lo]
  | backslash : Written 92#8 [92#8, 92#8]
  | quote : Written 34#8 [92#8, 34#8]

/-- The values a token may be written as. -/
inductive Spelled : Text → Text → Prop where
  | nil : Spelled [] []
  | cons {byte : BitVec 8} {form token value : Text}
      (written : Written byte form) (spelled : Spelled token value) :
      Spelled (byte :: token) (form ++ value)

/-- The digit that `%02x` prints for a number below 16. -/
def hexDigit (value : BitVec 8) : BitVec 8 :=
  if value < 10#8 then value + 48#8 else value + 87#8

/-- `\x` and the two digits that `%02x` prints. -/
def hexForm (c : BitVec 8) : Text :=
  [92#8, 120#8, hexDigit (c >>> 4), hexDigit (c &&& 15#8)]

theorem written_hexForm (c : BitVec 8) : Written c (hexForm c) := by
  have digits : ∀ c : BitVec 8, isXDigit (hexDigit (c >>> 4)) = true ∧
      isXDigit (hexDigit (c &&& 15#8)) = true ∧
      hexValue (hexDigit (c >>> 4)) <<< 4 |||
        hexValue (hexDigit (c &&& 15#8)) = c := by
    decide
  obtain ⟨high, low, value⟩ := digits c
  have written := Written.hex high low
  rwa [value] at written

theorem Written.form {byte : BitVec 8} {form : Text}
    (written : Written byte form) :
    (∀ c ∈ form, c ≠ 0#8 ∧ c ≠ 10#8 ∧ ¬NonPrintable c) ∧ 0 < form.length := by
  have literals : ∀ c, isLiteral c = true →
      c ≠ 0#8 ∧ c ≠ 10#8 ∧ ¬NonPrintable c := by decide
  have digits : ∀ c, isXDigit c = true →
      c ≠ 0#8 ∧ c ≠ 10#8 ∧ ¬NonPrintable c := by decide
  cases written with
  | literal printable =>
      exact ⟨List.forall_mem_singleton.mpr (literals _ printable), Nat.zero_lt_one⟩
  | hex high low =>
      refine ⟨?_, Nat.zero_lt_succ 3⟩
      simp only [List.forall_mem_cons]
      exact ⟨by decide, by decide, digits _ high, digits _ low, List.forall_mem_nil _⟩
  | backslash => exact ⟨by decide, Nat.zero_lt_succ 1⟩
  | quote => exact ⟨by decide, Nat.zero_lt_succ 1⟩

theorem Spelled.value {token value : Text} (spelled : Spelled token value) :
    (∀ c ∈ value, c ≠ 0#8 ∧ c ≠ 10#8 ∧ ¬NonPrintable c) ∧
      token.length ≤ value.length := by
  induction spelled with
  | nil => exact ⟨List.forall_mem_nil _, Nat.le_refl 0⟩
  | cons written spelled induction =>
      obtain ⟨clean, positive⟩ := written.form
      refine ⟨List.forall_mem_append.mpr ⟨clean, induction.1⟩, ?_⟩
      rw [List.length_cons, List.length_append]
      have shorter := induction.2
      omega

theorem Spelled.eq_nil_iff {token value : Text}
    (spelled : Spelled token value) : value = [] ↔ token = [] := by
  cases spelled with
  | nil => exact Iff.rfl
  | cons written spelled =>
      have positive := written.form.2
      refine iff_of_false (fun empty => ?_) (List.cons_ne_nil _ _)
      rw [List.append_eq_nil_iff] at empty
      rw [empty.1] at positive
      exact Nat.lt_irrefl 0 positive

theorem copyValue_written {byte : BitVec 8} {form : Text}
    (written : Written byte form) (fuel : Nat) (rest copied : Text) :
    copyValue (fuel + 1) (form ++ rest) copied =
      copyValue fuel rest (copied ++ [byte]) := by
  have literals : ∀ c, isLiteral c = true → ¬NonPrintable c ∧ c ≠ 92#8 := by
    decide
  have escapes : ∀ later : Text, escape later = some (byte, rest) →
      copyValue (fuel + 1) (92#8 :: later) copied =
        copyValue fuel rest (copied ++ [byte]) := by
    intro later escaped
    rw [copyValue, if_neg (by decide), if_pos rfl, escaped]
  cases written with
  | literal printable =>
      obtain ⟨clean, other⟩ := literals _ printable
      rw [List.singleton_append, copyValue, if_neg clean, if_neg other]
  | @hex hi lo high low =>
      have escaped : escape (120#8 :: hi :: lo :: rest) =
          some (hexValue hi <<< 4 ||| hexValue lo, rest) := by
        rw [escape, if_pos ⟨high, low⟩]
      exact escapes _ escaped
  | backslash => exact escapes _ rfl
  | quote => exact escapes _ rfl

theorem copyValue_spelled {token value : Text} (spelled : Spelled token value)
    {fuel : Nat} (enough : token.length < fuel) (copied : Text) :
    copyValue fuel value copied = some (copied ++ token) := by
  induction spelled generalizing fuel copied with
  | nil =>
      cases fuel with
      | zero => exact absurd enough (Nat.not_lt_zero _)
      | succ fuel => rw [copyValue, List.append_nil]
  | cons written spelled induction =>
      cases fuel with
      | zero => exact absurd enough (Nat.not_lt_zero _)
      | succ fuel =>
          rw [copyValue_written written,
            induction (Nat.lt_of_succ_lt_succ enough), List.append_assoc]
          rfl

end AFLPlusPlus.Dictionary
