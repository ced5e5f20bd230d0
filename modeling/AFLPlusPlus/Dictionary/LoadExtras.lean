import Mathlib.Algebra.Order.Ring.Nat

/-!
# Loading a dictionary

`load_extras_file` reads the lines of a dictionary and copies the quoted value
of each.  The loop that copies goes on to the next byte in every case but that
of a byte that is not printable.
-/

namespace AFLPlusPlus.Dictionary

def maxLine : Nat := 8192

def maxDictFile : Nat := 128

abbrev Text := List (BitVec 8)

def isSpace (c : BitVec 8) : Bool := c = 32#8 ∨ 9#8 ≤ c ∧ c ≤ 13#8

def isDigit (c : BitVec 8) : Bool := 48#8 ≤ c ∧ c ≤ 57#8

def isAlnum (c : BitVec 8) : Bool :=
  isDigit c ∨ 65#8 ≤ c ∧ c ≤ 90#8 ∨ 97#8 ≤ c ∧ c ≤ 122#8

def isXDigit (c : BitVec 8) : Bool :=
  isDigit c ∨ 65#8 ≤ c ∧ c ≤ 70#8 ∨ 97#8 ≤ c ∧ c ≤ 102#8

/-- The position of a hexadecimal digit in `hexdigits`, in lower case. -/
def hexValue (c : BitVec 8) : BitVec 8 :=
  if isDigit c then c - 48#8
  else if 97#8 ≤ c then c - 87#8
  else c - 55#8

/-- The bytes `1 ... 31` and `128 ... 255`. -/
def NonPrintable (c : BitVec 8) : Prop := 1#8 ≤ c ∧ c ≤ 31#8 ∨ 128#8 ≤ c

instance (c : BitVec 8) : Decidable (NonPrintable c) :=
  inferInstanceAs (Decidable (_ ∨ _))

/-- `atoi`, by which a number that is too large is cut. -/
def atoi (str : Text) : BitVec 32 :=
  let signed := str.dropWhile isSpace
  let negative := signed.head? = some 45#8
  let unsigned :=
    if negative ∨ signed.head? = some 43#8 then signed.tail else signed
  let magnitude := (unsigned.takeWhile isDigit).foldl
    (fun value c => value * 10 + (c.toNat - 48)) 0
  if negative then BitVec.ofInt 32 (-(min (2 ^ 63) magnitude : Nat))
  else BitVec.ofInt 32 (min (2 ^ 63 - 1) magnitude : Nat)

/-- The lines that `fgets` returns one after the other, with the bytes of the
line that has begun. -/
def fgets (line : Text) : Text → List Text
  | [] => if line = [] then [] else [line]
  | byte :: rest =>
      if byte = 10#8 ∨ line.length + 1 = maxLine - 1 then
        (line ++ [byte]) :: fgets [] rest
      else fgets (line ++ [byte]) rest

/-- Why a line has no value: it is empty or a comment, it is for a higher level,
or it is malformed, with the warning. -/
inductive Skip where
  | comment
  | level
  | malformedValue
  | malformedKeyword
  | emptyKeyword
  deriving DecidableEq

/-- The text of a line without blanks on the left and the right. -/
def trimmed (line : Text) : Text :=
  ((((line.takeWhile (· ≠ 0#8)).dropWhile isSpace).reverse).dropWhile isSpace).reverse

/-- What follows `@number`, if the level is high enough. -/
def skipLevel (dictLevel : BitVec 32) (text : Text) : Except Skip Text :=
  match text with
  | 64#8 :: number =>
      if dictLevel.toInt < (atoi number).toInt then .error .level
      else .ok (number.dropWhile isDigit)
  | _ => .ok text

/-- What follows `[number]`. -/
def skipCount (text : Text) : Text :=
  match text with
  | 91#8 :: rest =>
      match rest.dropWhile isDigit with
      | 93#8 :: rest => rest
      | rest => rest
  | _ => text

/-- The bytes between the first and the last quote of a line. -/
def quotedValue (dictLevel : BitVec 32) (line : Text) : Except Skip Text := do
  let text := trimmed line
  if text = [] ∨ text.head? = some 35#8 then throw .comment
  if text.getLast? ≠ some 34#8 then throw .malformedValue
  let text := text.dropLast.dropWhile fun c => isAlnum c ∨ c = 95#8
  let text ← skipLevel dictLevel text
  match (skipCount text).dropWhile fun c => isSpace c ∨ c = 61#8 with
  | 34#8 :: value => if value = [] then throw .emptyKeyword else pure value
  | _ => throw .malformedKeyword

/-- The byte that stands behind a backslash, with what follows. -/
def escape : Text → Option (BitVec 8 × Text)
  | 92#8 :: later => some (92#8, later)
  | 34#8 :: later => some (34#8, later)
  | 120#8 :: hi :: lo :: later =>
      if isXDigit hi ∧ isXDigit lo then
        some (hexValue hi <<< 4 ||| hexValue lo, later)
      else none
  | _ => none

/-- The loop over the value, for as many rounds as there is fuel, with what has
been copied. -/
def copyValue : Nat → Text → Text → Option Text
  | 0, _, _ => none
  | _ + 1, [], copied => some copied
  | fuel + 1, c :: rest, copied =>
      if NonPrintable c then
        -- a warning, and the next round begins at the same byte
        copyValue fuel (c :: rest) copied
      else if c = 92#8 then
        match escape rest with
        | some (byte, later) => copyValue fuel later (copied ++ [byte])
        -- a warning, and the backslash is left out
        | none => copyValue fuel rest copied
      else copyValue fuel rest (copied ++ [c])

/-- What is loaded: the tokens with the least and the greatest length. -/
structure LoadedExtras where
  extras : List Text
  minLen : Nat
  maxLen : Nat

/-- A token is kept unless it is too long. -/
def LoadedExtras.add (loaded : LoadedExtras) (value : Text) : LoadedExtras :=
  if maxDictFile < value.length then loaded
  else
    { extras := loaded.extras ++ [value]
      minLen := min loaded.minLen value.length
      maxLen := max loaded.maxLen value.length }

/-- The loop over the lines, with the number of the last one.  The program ends
where there is no memory for a token. -/
def loadLines (dictLevel : BitVec 32) (allocates : Nat → Bool) (fuel : Nat) :
    Nat → List Text → LoadedExtras → Option (Except Unit LoadedExtras)
  | _, [], loaded => some (.ok loaded)
  | curLine, line :: rest, loaded =>
      match quotedValue dictLevel line with
      | .error _ =>
          loadLines dictLevel allocates fuel (curLine + 1) rest loaded
      | .ok value =>
          if allocates (curLine + 1) then
            match copyValue fuel value [] with
            | none => none
            | some token =>
                loadLines dictLevel allocates fuel (curLine + 1) rest
                  (loaded.add token)
          else some (.error ())

def loadExtrasFile (dictLevel : BitVec 32) (allocates : Nat → Bool)
    (fuel : Nat) (file : Text) (loaded : LoadedExtras) :
    Option (Except Unit LoadedExtras) :=
  loadLines dictLevel allocates fuel 0 (fgets [] file) loaded

theorem escape_some {text later : Text} {byte : BitVec 8}
    (escaped : escape text = some (byte, later)) :
    later.length < text.length ∧
      ((∀ c ∈ later, ¬NonPrintable c) ↔ ∀ c ∈ text, ¬NonPrintable c) := by
  have printable : ∀ c, isXDigit c = true → ¬NonPrintable c := by decide
  unfold escape at escaped
  split at escaped
  · cases escaped
    refine ⟨Nat.lt_succ_self _, ?_⟩
    rw [List.forall_mem_cons]
    exact (and_iff_right (by decide)).symm
  · cases escaped
    refine ⟨Nat.lt_succ_self _, ?_⟩
    rw [List.forall_mem_cons]
    exact (and_iff_right (by decide)).symm
  · rw [Option.ite_none_right_eq_some] at escaped
    obtain ⟨digits, same⟩ := escaped
    cases same
    refine ⟨by simp only [List.length_cons]; omega, ?_⟩
    rw [List.forall_mem_cons, List.forall_mem_cons, List.forall_mem_cons,
      and_iff_right (by decide), and_iff_right (printable _ digits.1),
      and_iff_right (printable _ digits.2)]
  · cases escaped

theorem copyValue_stuck (fuel : Nat) {value : Text} (copied : Text)
    (stuck : ¬∀ c ∈ value, ¬NonPrintable c) :
    copyValue fuel value copied = none := by
  induction fuel generalizing value copied with
  | zero => rfl
  | succ fuel induction =>
      cases value with
      | nil =>
          exact absurd (List.forall_mem_nil _) stuck
      | cons c rest =>
          rw [copyValue]
          by_cases here : NonPrintable c
          · rw [if_pos here]
            exact induction copied stuck
          rw [if_neg here]
          rw [List.forall_mem_cons, and_iff_right here] at stuck
          split
          · cases escaped : escape rest with
            | none => exact induction copied stuck
            | some found =>
                obtain ⟨byte, later⟩ := found
                exact induction _ (mt (escape_some escaped).2.mp stuck)
          · exact induction _ stuck

theorem copyValue_finishes (fuel : Nat) {value : Text} (copied : Text)
    (printable : ∀ c ∈ value, ¬NonPrintable c) (enough : value.length < fuel) :
    ∃ token, copyValue fuel value copied = some token := by
  induction fuel generalizing value copied with
  | zero => exact absurd enough (Nat.not_lt_zero _)
  | succ fuel induction =>
      cases value with
      | nil => exact ⟨copied, rfl⟩
      | cons c rest =>
          have shorter : rest.length < fuel := Nat.lt_of_succ_lt_succ enough
          rw [List.forall_mem_cons] at printable
          rw [copyValue, if_neg printable.1]
          split
          · cases escaped : escape rest with
            | none => exact induction copied printable.2 shorter
            | some found =>
                obtain ⟨byte, later⟩ := found
                obtain ⟨less, same⟩ := escape_some escaped
                exact induction _ (same.mpr printable.2)
                  (Nat.lt_trans less shorter)
          · exact induction _ printable.2 shorter

/-- Every value up to the first one there is no memory for is printable, in the
lines behind line `curLine`. -/
def Printable (dictLevel : BitVec 32) (allocates : Nat → Bool) : Nat → List Text → Prop
  | _, [] => True
  | curLine, line :: rest =>
      match quotedValue dictLevel line with
      | .error _ => Printable dictLevel allocates (curLine + 1) rest
      | .ok value =>
          allocates (curLine + 1) = true →
            (∀ c ∈ value, ¬NonPrintable c) ∧
              Printable dictLevel allocates (curLine + 1) rest

variable {dictLevel : BitVec 32} {allocates : Nat → Bool} {curLine : Nat}
  {lines : List Text}

theorem loadLines_stuck (fuel : Nat) (loaded : LoadedExtras)
    (stuck : ¬Printable dictLevel allocates curLine lines) :
    loadLines dictLevel allocates fuel curLine lines loaded = none := by
  induction lines generalizing curLine loaded with
  | nil => exact absurd trivial stuck
  | cons line rest induction =>
      rw [Printable] at stuck
      rw [loadLines]
      cases quoted : quotedValue dictLevel line with
      | error skip =>
          rw [quoted] at stuck
          exact induction loaded stuck
      | ok value =>
          rw [quoted] at stuck
          obtain ⟨memory, stuck⟩ := Classical.not_imp.mp stuck
          change (if allocates (curLine + 1) = true then _ else _) = _
          rw [if_pos memory]
          by_cases printable : ∀ c ∈ value, ¬NonPrintable c
          · rw [and_iff_right printable] at stuck
            cases copyValue fuel value [] with
            | none => rfl
            | some token => exact induction _ stuck
          · rw [copyValue_stuck fuel [] printable]

theorem loadLines_finishes
    (printable : Printable dictLevel allocates curLine lines) :
    ∃ bound, ∀ fuel ≥ bound, ∀ loaded, ∃ result,
      loadLines dictLevel allocates fuel curLine lines loaded = some result := by
  induction lines generalizing curLine with
  | nil => exact ⟨0, fun _ _ loaded => ⟨.ok loaded, rfl⟩⟩
  | cons line rest induction =>
      rw [Printable] at printable
      simp only [loadLines]
      cases quoted : quotedValue dictLevel line with
      | error skip =>
          rw [quoted] at printable
          exact induction printable
      | ok value =>
          rw [quoted] at printable
          by_cases memory : allocates (curLine + 1) = true
          · obtain ⟨clean, later⟩ := printable memory
            obtain ⟨bound, finishes⟩ := induction later
            refine ⟨max bound (value.length + 1), ?_⟩
            intro fuel enough loaded
            obtain ⟨token, copied⟩ := copyValue_finishes fuel [] clean
              (Nat.le_trans (Nat.le_max_right _ _) enough)
            simp only [memory, if_true, copied]
            exact finishes fuel (Nat.le_trans (Nat.le_max_left _ _) enough) _
          · simp only [memory]
            exact ⟨0, fun _ _ _ => ⟨.error (), rfl⟩⟩

/-- A file is read to its end, or to a token there is no memory for, exactly if
no quoted value on the way has a byte that is not printable. -/
theorem loadExtrasFile_finishes_iff (dictLevel : BitVec 32)
    (allocates : Nat → Bool) (file : Text) (loaded : LoadedExtras) :
    (∃ fuel result,
        loadExtrasFile dictLevel allocates fuel file loaded = some result) ↔
      Printable dictLevel allocates 0 (fgets [] file) := by
  constructor
  · rintro ⟨fuel, result, finished⟩
    by_contra stuck
    rw [loadExtrasFile, loadLines_stuck fuel loaded stuck] at finished
    cases finished
  · intro printable
    obtain ⟨bound, finishes⟩ := loadLines_finishes printable
    obtain ⟨result, finished⟩ := finishes bound (Nat.le_refl bound) loaded
    exact ⟨bound, result, finished⟩

/-- A line with a tabulator between its quotes is never read to its end. -/
theorem loadExtrasFile_tabulator :
    ¬∃ fuel result, loadExtrasFile 0 (fun _ => true) fuel
      [34#8, 97#8, 9#8, 34#8, 10#8] ⟨[], maxDictFile, 0⟩ = some result := by
  rintro ⟨fuel, result, finished⟩
  have stuck : ¬Printable 0 (fun _ => true) 0
      (fgets [] [34#8, 97#8, 9#8, 34#8, 10#8]) := by
    intro printable
    exact absurd ((printable rfl).1 9#8 (by decide)) (by decide)
  rw [loadExtrasFile, loadLines_stuck fuel _ stuck] at finished
  cases finished

end AFLPlusPlus.Dictionary
