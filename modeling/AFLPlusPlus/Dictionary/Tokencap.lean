import AFLPlusPlus.Config
import AFLPlusPlus.Dictionary.RoundTrip

/-!
# The dictionaries of `libtokencap`

`__tokencap_dump` writes a token between quotes, with every byte that is not
printable in hexadecimal.  What it writes is loaded as the tokens it has seen.
-/

namespace AFLPlusPlus.Dictionary

/-- The loop of `__tokencap_dump`, which stops at the end of a text. -/
def tokencapEscape (isText : Bool) : Text → Text
  | [] => []
  | c :: rest =>
      if isText ∧ c = 0#8 then []
      else if c ≤ 31#8 ∨ 127#8 ≤ c ∨ c = 34#8 ∨ c = 92#8 then
        hexForm c ++ tokencapEscape isText rest
      else c :: tokencapEscape isText rest

/-- `__tokencap_dump`, as what it appends to the file. -/
def tokencapDump (ptr : Text) (isText : Bool) : Text :=
  if ptr.length < minAutoExtra ∨ maxAutoExtra < ptr.length then []
  else [34#8] ++ tokencapEscape isText ptr ++ [34#8, 10#8]

/-- The bytes that are seen of a token: those of a text end with its
terminator. -/
def tokencapToken (isText : Bool) (ptr : Text) : Text :=
  ptr.takeWhile fun c => !(isText && c == 0#8)

/-- The tokens that are written for a call: none if it is too short or too
long, or empty as a text. -/
def tokencapTokens (ptr : Text) (isText : Bool) : List Text :=
  if ptr.length < minAutoExtra ∨ maxAutoExtra < ptr.length ∨
      tokencapToken isText ptr = [] then []
  else [tokencapToken isText ptr]

theorem spelled_tokencapEscape (isText : Bool) (ptr : Text) :
    Spelled (tokencapToken isText ptr) (tokencapEscape isText ptr) := by
  have literals : ∀ c : BitVec 8,
      ¬(c ≤ 31#8 ∨ 127#8 ≤ c ∨ c = 34#8 ∨ c = 92#8) → isLiteral c = true := by
    decide
  induction ptr with
  | nil => exact .nil
  | cons c rest induction =>
      rw [tokencapEscape]
      by_cases terminator : isText ∧ c = 0#8
      · have stops : tokencapToken isText (c :: rest) = [] :=
          List.takeWhile_cons_of_neg (by simp [terminator])
        rw [if_pos terminator, stops]
        exact .nil
      have goesOn : tokencapToken isText (c :: rest) =
          c :: tokencapToken isText rest :=
        List.takeWhile_cons_of_pos (by
          cases isText with
          | false => rfl
          | true => simpa using terminator)
      rw [if_neg terminator, goesOn]
      by_cases special : c ≤ 31#8 ∨ 127#8 ≤ c ∨ c = 34#8 ∨ c = 92#8
      · rw [if_pos special]
        exact .cons (written_hexForm c) induction
      · rw [if_neg special]
        exact .cons (.literal (literals c special)) induction

theorem length_tokencapEscape (isText : Bool) (ptr : Text) :
    (tokencapEscape isText ptr).length ≤ 4 * ptr.length := by
  induction ptr with
  | nil => exact Nat.le_refl 0
  | cons c rest induction =>
      rw [tokencapEscape, List.length_cons]
      split
      · exact Nat.zero_le _
      · split
        · rw [List.length_append, hexForm]
          simp only [List.length_cons, List.length_nil]
          omega
        · rw [List.length_cons]
          omega

/-- Nothing but the quotes around a value. -/
def bareFrame (dictLevel : BitVec 32) : Frame dictLevel where
  left := []
  name := []
  level := none
  count := none
  separators := []
  right := []
  leftBlank := List.forall_mem_nil _
  nameChars := List.forall_mem_nil _
  levelDigits := fun _ digits => nomatch digits
  admitted := fun _ digits => nomatch digits
  countDigits := fun _ digits => nomatch digits
  separate := List.forall_mem_nil _
  rightBlank := List.forall_mem_nil _

theorem tokencapDump_line (dictLevel : BitVec 32) (ptr : Text)
    (isText : Bool) :
    (tokencapDump ptr isText = [] ∧ tokencapTokens ptr isText = []) ∨
      ∃ line : Line dictLevel, tokencapDump ptr isText = line.text ++ [10#8] ∧
        tokencapTokens ptr isText = line.tokens := by
  by_cases ignored : ptr.length < minAutoExtra ∨ maxAutoExtra < ptr.length
  · refine .inl ⟨if_pos ignored, ?_⟩
    rw [tokencapTokens, if_pos (ignored.imp_right .inl)]
  have size : ptr.length ≤ maxAutoExtra :=
    Nat.not_lt.mp fun large => ignored (.inr large)
  have short := length_tokencapEscape isText ptr
  rw [maxAutoExtra] at size
  refine .inr ⟨.keyword (bareFrame dictLevel) _ (tokencapEscape isText ptr)
    (spelled_tokencapEscape isText ptr) ?_ ?_, ?_, ?_⟩
  · have fewer := (spelled_tokencapEscape isText ptr).value.2
    rw [maxDictFile]
    omega
  · simp only [Frame.text, bareFrame, Frame.label, Frame.levelText,
      Frame.countText, Option.elim_none, List.nil_append, List.append_nil,
      List.length_cons, List.length_append, List.length_nil, maxLine]
    omega
  · rw [tokencapDump, if_neg ignored]
    simp only [Line.text, Frame.text, bareFrame, Frame.label, Frame.levelText,
      Frame.countText, Option.elim_none, List.nil_append, List.append_nil,
      List.cons_append, List.append_assoc]
  · rw [not_or] at ignored
    simp only [tokencapTokens, Line.tokens, ignored.1, ignored.2, false_or]

/-- A file is loaded as its tokens, unless there is no memory for one. -/
def Loads (dictLevel : BitVec 32) (allocates : Nat → Bool) (fuel : Nat)
    (loaded : LoadedExtras) (file : Text) (tokens : List Text) : Prop :=
  (∃ result, loadExtrasFile dictLevel allocates fuel file loaded =
      some (.ok result) ∧ result.extras = loaded.extras ++ tokens) ∨
    loadExtrasFile dictLevel allocates fuel file loaded = some (.error ()) ∧
      ∃ line, allocates line = false

theorem loads_of_reads {dictLevel : BitVec 32} {file : Text}
    {tokens : List Text} (reads : Reads dictLevel (fgets [] file) tokens)
    (allocates : Nat → Bool) {fuel : Nat} (enough : maxDictFile < fuel)
    (loaded : LoadedExtras) :
    Loads dictLevel allocates fuel loaded file tokens :=
  (loadLines_reads reads allocates enough 0 loaded).imp_left fun finished =>
    ⟨_, finished, extras_foldl_add reads.small loaded⟩

theorem reads_tokencap (dictLevel : BitVec 32) (calls : List (Text × Bool)) :
    Reads dictLevel
      (fgets [] (calls.flatMap fun call => tokencapDump call.1 call.2))
      (calls.flatMap fun call => tokencapTokens call.1 call.2) := by
  induction calls with
  | nil => exact .nil
  | cons call calls induction =>
      rw [List.flatMap_cons, List.flatMap_cons]
      rcases tokencapDump_line dictLevel call.1 call.2 with
        ⟨nothing, none⟩ | ⟨line, text, tokens⟩
      · rw [nothing, none]
        exact induction
      · obtain ⟨pieces, reads, same⟩ := line.reads (.newline _)
        rw [text, tokens, List.append_assoc, List.singleton_append, same]
        exact reads.append induction

/-- The lines of a dictionary and the lines of `libtokencap` are loaded as the
tokens they stand for, and no value is too long for its buffer. -/
theorem loadExtrasFile_decodes (dictLevel : BitVec 32)
    (allocates : Nat → Bool) {fuel : Nat} (enough : maxDictFile < fuel)
    (loaded : LoadedExtras) :
    (∀ (lines : List (Line dictLevel)) (last : Line dictLevel),
      Loads dictLevel allocates fuel loaded (fileText lines last)
        (lines.flatMap Line.tokens ++ last.tokens)) ∧
      (∀ calls : List (Text × Bool),
        Loads dictLevel allocates fuel loaded
          (calls.flatMap fun call => tokencapDump call.1 call.2)
          (calls.flatMap fun call => tokencapTokens call.1 call.2)) ∧
      ∀ line value buffer : Text, quotedValue dictLevel line = .ok value →
        buffer.length = value.length → ∀ rounds,
          Stores buffer (copyValue rounds value [])
            (storeValue rounds value buffer 0) := by
  refine ⟨fun lines last => loads_of_reads (reads_fileText lines last)
    allocates enough loaded, fun calls => loads_of_reads
    (reads_tokencap dictLevel calls) allocates enough loaded, ?_⟩
  intro line value buffer quoted size rounds
  have room : 0 + value.length ≤ buffer.length := by
    rw [Nat.zero_add, size]
  exact storeValue_stores rounds room

theorem loadExtrasFile_decodes_case :
    Loads 0 (fun _ => true) 129 ⟨[], maxDictFile, 0⟩
        (tokencapDump [1#8, 34#8, 65#8] false)
        [[1#8, 34#8, 65#8]] :=
  (loadExtrasFile_decodes 0 (fun _ => true) (by decide)
    ⟨[], maxDictFile, 0⟩).2.1 [([1#8, 34#8, 65#8], false)]

end AFLPlusPlus.Dictionary
