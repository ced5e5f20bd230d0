import AFLPlusPlus.Dictionary.TokenBuffer
import Mathlib.Data.List.DropRight

/-!
# Dictionaries that are read back

The lines of a dictionary are keywords with a name, a level and a count in front
of the quotes, blank lines and comments.  A file of such lines is loaded as its
tokens, each with the bytes it stands for.
-/

namespace AFLPlusPlus.Dictionary

def isBlank (c : BitVec 8) : Bool := isSpace c ∧ c ≠ 10#8

def isSeparator (c : BitVec 8) : Bool := isBlank c ∨ c = 61#8

def isNameChar (c : BitVec 8) : Bool := isAlnum c ∨ c = 95#8

/-- What stands around a value, all of which is optional: blanks, a name,
`@number`, `[number]`, and `=` with blanks. -/
structure Frame (dictLevel : BitVec 32) where
  left : Text
  name : Text
  level : Option Text
  count : Option Text
  separators : Text
  right : Text
  leftBlank : ∀ c ∈ left, isBlank c = true
  nameChars : ∀ c ∈ name, isNameChar c = true
  levelDigits : ∀ digits ∈ level, ∀ c ∈ digits, isDigit c = true
  admitted : ∀ digits ∈ level, (atoi digits).toInt ≤ dictLevel.toInt
  countDigits : ∀ digits ∈ count, ∀ c ∈ digits, isDigit c = true
  separate : ∀ c ∈ separators, isSeparator c = true
  rightBlank : ∀ c ∈ right, isBlank c = true

variable {dictLevel : BitVec 32}

namespace Frame

def levelText (frame : Frame dictLevel) : Text :=
  frame.level.elim [] fun digits => 64#8 :: digits

def countText (frame : Frame dictLevel) : Text :=
  frame.count.elim [] fun digits => 91#8 :: digits ++ [93#8]

def label (frame : Frame dictLevel) : Text :=
  frame.name ++ frame.levelText ++ frame.countText

def text (frame : Frame dictLevel) (value : Text) : Text :=
  frame.left ++ (frame.label ++ (frame.separators ++
    34#8 :: (value ++ [34#8]))) ++ frame.right

end Frame

/-- A keyword may be written in any of the admitted ways and may be empty; only
a blank line may be longer than the buffer of a line. -/
inductive Line (dictLevel : BitVec 32) where
  | keyword (frame : Frame dictLevel) (token value : Text)
      (spelled : Spelled token value) (small : token.length ≤ maxDictFile)
      (short : (frame.text value).length < maxLine)
  | blank (blanks : Text) (allBlank : ∀ c ∈ blanks, isBlank c = true)
  | comment (blanks remark : Text) (allBlank : ∀ c ∈ blanks, isBlank c = true)
      (oneLine : 10#8 ∉ remark)
      (short : (blanks ++ 35#8 :: remark).length < maxLine)

namespace Line

def text : Line dictLevel → Text
  | keyword frame _ value _ _ _ => frame.text value
  | blank blanks _ => blanks
  | comment blanks remark _ _ _ => blanks ++ 35#8 :: remark

def tokens : Line dictLevel → List Text
  | keyword _ token _ _ _ _ => if token = [] then [] else [token]
  | blank _ _ => []
  | comment _ _ _ _ _ => []

end Line

/-- A file of lines, the last of which need not end. -/
def fileText (lines : List (Line dictLevel)) (last : Line dictLevel) : Text :=
  (lines.flatMap fun line => line.text ++ [10#8]) ++ last.text

theorem isSpace_of_isBlank {c : BitVec 8} (blank : isBlank c = true) :
    isSpace c = true := by
  revert c
  decide

variable {p : BitVec 8 → Bool} {begun line : Text}

theorem trimmed_blank (blank : ∀ c ∈ line, isSpace c = true) : trimmed line = [] := by
  have nonzero : ∀ c, isSpace c = true → decide (c ≠ 0#8) = true := by decide
  have whole : line.takeWhile (fun c => decide (c ≠ 0#8)) = line :=
    List.takeWhile_eq_self_iff.mpr fun c mem => nonzero c (blank c mem)
  rw [trimmed, whole, List.dropWhile_eq_nil_iff.mpr blank]
  rfl

/-- What is left of a line when what stands between the blanks begins and ends
with other characters. -/
theorem trimmed_core {left core right : Text}
    (leftBlank : ∀ c ∈ left, isSpace c = true)
    (rightBlank : ∀ c ∈ right, isSpace c = true)
    (nonzero : ∀ c ∈ core, c ≠ 0#8)
    (ends : ∃ start last, core = start ++ [last] ∧ isSpace last = false) :
    trimmed (left ++ core ++ right) = core.dropWhile isSpace := by
  obtain ⟨start, last, rfl, visible⟩ := ends
  have blanksNonzero : ∀ c, isSpace c = true → decide (c ≠ 0#8) = true := by
    decide
  have whole : (left ++ (start ++ [last]) ++ right).takeWhile
      (fun c => decide (c ≠ 0#8)) = left ++ (start ++ [last]) ++ right := by
    refine List.takeWhile_eq_self_iff.mpr ?_
    simp only [List.forall_mem_append]
    rw [List.forall_mem_append] at nonzero
    exact ⟨⟨fun c mem => blanksNonzero c (leftBlank c mem),
      fun c mem => decide_eq_true (nonzero.1 c mem),
      fun c mem => decide_eq_true (nonzero.2 c mem)⟩,
      fun c mem => blanksNonzero c (rightBlank c mem)⟩
  have kept : ∃ start', (start ++ [last]).dropWhile isSpace = start' ++ [last] := by
    rw [List.dropWhile_append]
    split
    · exact ⟨[], by rw [List.dropWhile_cons_of_neg (by rw [visible]; decide)]; rfl⟩
    · exact ⟨_, rfl⟩
  obtain ⟨start', same⟩ := kept
  have front : (left ++ (start ++ [last]) ++ right).dropWhile isSpace =
      start' ++ [last] ++ right := by
    rw [List.append_assoc, List.dropWhile_append_of_pos leftBlank,
      List.dropWhile_append, same, if_neg (by simp)]
  rw [trimmed, whole, front, same, List.reverse_append,
    List.dropWhile_append_of_pos
      (fun c mem => rightBlank c (List.mem_reverse.mp mem)),
    List.reverse_append, List.reverse_singleton, List.singleton_append,
    List.dropWhile_cons_of_neg (by rw [visible]; decide), List.reverse_cons,
    List.reverse_reverse]

/-- A text in which no number goes on. -/
def Stops (text : Text) : Prop :=
  (∀ c ∈ text.head?, isDigit c = false) ∧
    ∀ c ∈ (text.dropWhile isSpace).head?, isDigit c = false ∧ c ≠ 45#8 ∧ c ≠ 43#8

theorem takeWhile_stops {text : Text} (stops : ∀ c ∈ text.head?, p c = false) :
    text.takeWhile p = [] := by
  cases text with
  | nil => rfl
  | cons c rest =>
      exact List.takeWhile_cons_of_neg (by rw [stops c rfl]; decide)

theorem dropWhile_stops {text : Text} (stops : ∀ c ∈ text.head?, p c = false) :
    text.dropWhile p = text := by
  cases text with
  | nil => rfl
  | cons c rest =>
      exact List.dropWhile_cons_of_neg (by rw [stops c rfl]; decide)

theorem atoi_append {digits rest : Text}
    (allDigits : ∀ c ∈ digits, isDigit c = true) (stops : Stops rest) :
    atoi (digits ++ rest) = atoi digits := by
  have sign : ∀ c, isDigit c = true →
      isSpace c = false ∧ c ≠ 45#8 ∧ c ≠ 43#8 := by decide
  cases digits with
  | nil =>
      have noSign : ∀ c, c = 45#8 ∨ c = 43#8 →
          (rest.dropWhile isSpace).head? ≠ some c := by
        rintro c isSign head
        have other := (stops.2 c head).2
        rcases isSign with rfl | rfl
        · exact other.1 rfl
        · exact other.2 rfl
      have noDigit := takeWhile_stops fun c head => (stops.2 c head).1
      rw [List.nil_append, atoi, atoi]
      simp only [noSign _ (.inl rfl), noSign _ (.inr rfl), or_self, if_false, noDigit]
      rfl
  | cons first digits =>
      obtain ⟨visible, noMinus, noPlus⟩ := sign first (allDigits first
        List.mem_cons_self)
      have noSpace : ¬isSpace first = true := by
        rw [visible]
        decide
      have number : (first :: digits ++ rest).takeWhile isDigit = first :: digits := by
        rw [List.takeWhile_append_of_pos allDigits, takeWhile_stops stops.1,
          List.append_nil]
      have alone : (first :: digits).takeWhile isDigit = first :: digits :=
        List.takeWhile_eq_self_iff.mpr allDigits
      rw [List.cons_append] at number
      rw [List.cons_append, atoi, atoi, List.dropWhile_cons_of_neg noSpace,
        List.dropWhile_cons_of_neg noSpace]
      simp only [List.head?_cons, Option.some.injEq, noMinus, noPlus, or_self,
        if_false, number, alone]

theorem skipLevel_other {text : Text} (other : ∀ c ∈ text.head?, c ≠ 64#8) :
    skipLevel dictLevel text = .ok text := by
  unfold skipLevel
  split
  · exact absurd rfl (other _ rfl)
  · rfl

theorem skipCount_other {text : Text} (other : ∀ c ∈ text.head?, c ≠ 91#8) :
    skipCount text = text := by
  unfold skipCount
  split
  · exact absurd rfl (other _ rfl)
  · rfl

namespace Frame

variable (frame : Frame dictLevel)

/-- Separators and what follows the opening quote: the part of a line on which
every loop in front of it stops. -/
def Opens (text : Text) : Prop :=
  ∃ separators tail, text = separators ++ 34#8 :: tail ∧
    ∀ c ∈ separators, isSeparator c = true

section

variable {text : Text} (opens : Opens text)
include opens

theorem Opens.head :
    ∀ c ∈ text.head?, isNameChar c = false ∧ isDigit c = false ∧
      c ≠ 64#8 ∧ c ≠ 91#8 ∧ c ≠ 35#8 := by
  have others : ∀ c, isSeparator c = true → isNameChar c = false ∧
      isDigit c = false ∧ c ≠ 64#8 ∧ c ≠ 91#8 ∧ c ≠ 35#8 := by decide
  obtain ⟨separators, tail, rfl, separate⟩ := opens
  rintro c head
  cases separators with
  | nil =>
      obtain rfl := Option.some.inj head
      decide
  | cons first separators =>
      obtain rfl := Option.some.inj head
      exact others _ (separate _ List.mem_cons_self)

theorem Opens.dropBlanks : Opens (text.dropWhile isSpace) := by
  obtain ⟨separators, tail, rfl, separate⟩ := opens
  rw [List.dropWhile_append]
  split
  · exact ⟨[], tail, List.dropWhile_cons_of_neg (by decide), List.forall_mem_nil _⟩
  · exact ⟨separators.dropWhile isSpace, tail, rfl, fun c mem =>
      separate c ((List.dropWhile_suffix _).subset mem)⟩

theorem Opens.stops : Stops text := by
  have noSign : ∀ c, isSeparator c = true ∨ c = 34#8 → c ≠ 45#8 ∧ c ≠ 43#8 := by
    decide
  refine ⟨fun c head => (opens.head c head).2.1, fun c head => ?_⟩
  refine ⟨(opens.dropBlanks.head c head).2.1, noSign c ?_⟩
  obtain ⟨separators, tail, same, separate⟩ := opens.dropBlanks
  rw [same] at head
  cases separators with
  | nil => exact .inr (Option.some.inj head).symm
  | cons first separators =>
      obtain rfl := Option.some.inj head
      exact .inl (separate _ List.mem_cons_self)

theorem stops_countText : Stops (frame.countText ++ text) := by
  unfold countText
  cases frame.count with
  | none => exact opens.stops
  | some digits =>
      have bracket : ∀ c ∈ some 91#8,
          isDigit c = false ∧ c ≠ 45#8 ∧ c ≠ 43#8 := by decide
      exact ⟨fun c head => (bracket c head).1, bracket⟩

theorem head_countText :
    ∀ c ∈ (frame.countText ++ text).head?,
      isNameChar c = false ∧ c ≠ 64#8 ∧ c ≠ 35#8 := by
  unfold countText
  cases frame.count with
  | none =>
      intro c head
      obtain ⟨noName, _, noAt, _, noHash⟩ := opens.head c head
      exact ⟨noName, noAt, noHash⟩
  | some digits =>
      rintro c head
      obtain rfl := Option.some.inj head
      decide

theorem head_levelText :
    ∀ c ∈ (frame.levelText ++ (frame.countText ++ text)).head?,
      isNameChar c = false ∧ c ≠ 35#8 := by
  unfold levelText
  cases frame.level with
  | none =>
      intro c head
      have others := frame.head_countText opens c head
      exact ⟨others.1, others.2.2⟩
  | some digits =>
      rintro c head
      obtain rfl := Option.some.inj head
      decide

theorem skipCount_countText : skipCount (frame.countText ++ text) = text := by
  have allDigits := frame.countDigits
  unfold countText
  cases count : frame.count with
  | none => exact skipCount_other fun c head => (opens.head c head).2.2.2.1
  | some digits =>
      have closing : ((digits ++ [93#8]) ++ text).dropWhile isDigit =
          93#8 :: text := by
        rw [List.append_assoc, List.dropWhile_append_of_pos (allDigits digits count)]
        exact List.dropWhile_cons_of_neg (by decide)
      rw [Option.elim_some, List.cons_append, List.cons_append, skipCount, closing]
      rfl

theorem skipLevel_levelText :
    skipLevel dictLevel (frame.levelText ++ (frame.countText ++ text)) =
      .ok (frame.countText ++ text) := by
  have allDigits := frame.levelDigits
  have admitted := frame.admitted
  have stops := frame.stops_countText opens
  unfold levelText
  cases level : frame.level with
  | none => exact skipLevel_other fun c head =>
      (frame.head_countText opens c head).2.1
  | some digits =>
      have low := Int.not_lt.mpr (admitted digits level)
      rw [Option.elim_some, List.cons_append, skipLevel,
        atoi_append (allDigits digits level) stops, if_neg low,
        List.dropWhile_append_of_pos (allDigits digits level),
        dropWhile_stops stops.1]

theorem skip_label :
    ((frame.label ++ text).dropWhile isNameChar) =
      frame.levelText ++ (frame.countText ++ text) := by
  rw [label, List.append_assoc, List.append_assoc,
    List.dropWhile_append_of_pos frame.nameChars]
  exact dropWhile_stops fun c head => (frame.head_levelText opens c head).1

end

theorem head_label : ∀ c ∈ frame.label.head?, isSpace c = false ∧ c ≠ 35#8 := by
  have name : ∀ c, isNameChar c = true → isSpace c = false ∧ c ≠ 35#8 := by
    decide
  have nameChars := frame.nameChars
  unfold label levelText countText
  rintro c head
  cases names : frame.name with
  | cons first rest =>
      rw [names] at head nameChars
      obtain rfl := Option.some.inj head
      exact name _ (nameChars _ List.mem_cons_self)
  | nil =>
      rw [names] at head
      cases level : frame.level with
      | some digits =>
          rw [level] at head
          obtain rfl := Option.some.inj head
          decide
      | none =>
          rw [level] at head
          cases count : frame.count with
          | some digits =>
              rw [count] at head
              obtain rfl := Option.some.inj head
              decide
          | none =>
              rw [count] at head
              cases head

/-- Where nothing stands in front of the separators, those that are blanks are
trimmed. -/
theorem dropBlanks_label {separators : Text} (tail : Text)
    (separate : ∀ c ∈ separators, isSeparator c = true) :
    ∃ separators', (∀ c ∈ separators', isSeparator c = true) ∧
      (frame.label ++ (separators ++ 34#8 :: tail)).dropWhile isSpace =
        frame.label ++ (separators' ++ 34#8 :: tail) := by
  have heads := frame.head_label
  cases label : frame.label with
  | nil =>
      refine ⟨separators.dropWhile isSpace, fun c mem =>
        separate c ((List.dropWhile_suffix _).subset mem), ?_⟩
      rw [List.nil_append, List.nil_append, List.dropWhile_append]
      split
      · rename_i gone
        rw [List.isEmpty_iff.mp gone]
        exact List.dropWhile_cons_of_neg (by decide)
      · rfl
  | cons first rest =>
      rw [label] at heads
      exact ⟨separators, separate, dropWhile_stops fun c head =>
        (heads c head).1⟩

theorem not_comment {text : Text} (opens : Opens text) :
    frame.label ++ text ≠ [] ∧ (frame.label ++ text).head? ≠ some 35#8 := by
  have heads := frame.head_label
  cases label : frame.label with
  | nil =>
      rw [List.nil_append]
      refine ⟨?_, fun head => (opens.head _ head).2.2.2.2 rfl⟩
      obtain ⟨separators, tail, rfl, _⟩ := opens
      exact List.append_ne_nil_of_right_ne_nil _ (List.cons_ne_nil _ _)
  | cons first rest =>
      rw [label] at heads
      exact ⟨List.cons_ne_nil _ _, fun head => (heads _ head).2 rfl⟩

theorem clean {token value : Text} (spelled : Spelled token value) :
    ∀ c ∈ frame.label ++ (frame.separators ++ 34#8 :: (value ++ [34#8])),
      c ≠ 0#8 ∧ c ≠ 10#8 := by
  have names : ∀ c, isNameChar c = true → c ≠ 0#8 ∧ c ≠ 10#8 := by decide
  have digit : ∀ c, isDigit c = true → c ≠ 0#8 ∧ c ≠ 10#8 := by decide
  have separators : ∀ c, isSeparator c = true → c ≠ 0#8 ∧ c ≠ 10#8 := by
    decide
  have level : ∀ c ∈ frame.levelText, c ≠ 0#8 ∧ c ≠ 10#8 := by
    have allDigits := frame.levelDigits
    unfold levelText
    cases level : frame.level with
    | none => exact List.forall_mem_nil _
    | some digits =>
        exact List.forall_mem_cons.mpr ⟨by decide, fun c mem =>
          digit c (allDigits digits level c mem)⟩
  have count : ∀ c ∈ frame.countText, c ≠ 0#8 ∧ c ≠ 10#8 := by
    have allDigits := frame.countDigits
    unfold countText
    cases count : frame.count with
    | none => exact List.forall_mem_nil _
    | some digits =>
        exact List.forall_mem_cons.mpr ⟨by decide,
          List.forall_mem_append.mpr ⟨fun c mem =>
            digit c (allDigits digits count c mem), by decide⟩⟩
  rw [label]
  simp only [List.forall_mem_append, List.forall_mem_cons]
  exact ⟨⟨⟨fun c mem => names c (frame.nameChars c mem), level⟩, count⟩,
    fun c mem => separators c (frame.separate c mem), by decide,
    fun c mem => ⟨(spelled.value.1 c mem).1, (spelled.value.1 c mem).2.1⟩,
    by decide, List.forall_mem_nil _⟩

theorem quotedValue_text {token value : Text} (spelled : Spelled token value)
    {newline : Text} (blank : ∀ c ∈ newline, isSpace c = true) :
    quotedValue dictLevel (frame.text value ++ newline) =
      if token = [] then .error .emptyKeyword else .ok value := by
  have trim : ∃ separators, (∀ c ∈ separators, isSeparator c = true) ∧
      trimmed (frame.text value ++ newline) =
        frame.label ++ (separators ++ 34#8 :: value) ++ [34#8] := by
    obtain ⟨separators, separate, same⟩ :=
      frame.dropBlanks_label (value ++ [34#8]) frame.separate
    refine ⟨separators, separate, ?_⟩
    rw [text, List.append_assoc, trimmed_core
      (fun c mem => isSpace_of_isBlank (frame.leftBlank c mem))
      (List.forall_mem_append.mpr ⟨fun c mem =>
        isSpace_of_isBlank (frame.rightBlank c mem), blank⟩)
      (fun c mem => (frame.clean spelled c mem).1)
      ⟨frame.label ++ (frame.separators ++ 34#8 :: value), 34#8,
        by simp only [List.append_assoc, List.cons_append], by decide⟩, same]
    simp only [List.append_assoc, List.cons_append]
  obtain ⟨separators, separate, trim⟩ := trim
  have opens : Opens (separators ++ 34#8 :: value) :=
    ⟨separators, value, rfl, separate⟩
  have opensQuoted : Opens (separators ++ 34#8 :: (value ++ [34#8])) :=
    ⟨separators, _, rfl, separate⟩
  have noComment := frame.not_comment opensQuoted
  have reassociate : frame.label ++ (separators ++ 34#8 :: (value ++ [34#8])) =
      frame.label ++ (separators ++ 34#8 :: value) ++ [34#8] := by
    simp only [List.append_assoc, List.cons_append]
  have opening : (separators ++ 34#8 :: value).dropWhile
      (fun c => decide (isSpace c = true ∨ c = 61#8)) = 34#8 :: value := by
    have separator : ∀ c, isSeparator c = true →
        decide (isSpace c = true ∨ c = 61#8) = true := by decide
    rw [List.dropWhile_append_of_pos fun c mem =>
      separator c (separate c mem)]
    exact List.dropWhile_cons_of_neg (by decide)
  have names : (fun c : BitVec 8 => decide (isAlnum c = true ∨ c = 95#8)) =
      isNameChar := rfl
  rw [reassociate] at noComment
  rw [quotedValue, trim]
  simp only [noComment.1, noComment.2, or_self, if_false, List.dropLast_concat,
    List.getLast?_concat, ne_eq, not_true_eq_false, names,
    frame.skip_label opens, frame.skipLevel_levelText opens, bind, Except.bind,
    frame.skipCount_countText opens, opening]
  by_cases empty : token = []
  · rw [if_pos empty, if_pos (spelled.eq_nil_iff.mpr empty)]
    rfl
  · rw [if_neg empty, if_neg (mt spelled.eq_nil_iff.mp empty)]
    rfl

end Frame

theorem quotedValue_blank (blank : ∀ c ∈ line, isSpace c = true) :
    quotedValue dictLevel line = .error .comment := by
  rw [quotedValue, trimmed_blank blank]
  rfl

theorem quotedValue_comment {blanks : Text} (rest : Text)
    (blank : ∀ c ∈ blanks, isSpace c = true) :
    quotedValue dictLevel (blanks ++ 35#8 :: rest) = .error .comment := by
  have nonzero : ∀ c, isSpace c = true → decide (c ≠ 0#8) = true := by decide
  have start : ∃ text, ((blanks ++ 35#8 :: rest).takeWhile
      (fun c => decide (c ≠ 0#8))).dropWhile isSpace = 35#8 :: text := by
    rw [List.takeWhile_append_of_pos fun c mem => nonzero c (blank c mem),
      List.takeWhile_cons_of_pos (by decide),
      List.dropWhile_append_of_pos blank,
      List.dropWhile_cons_of_neg (by decide)]
    exact ⟨_, rfl⟩
  obtain ⟨text, start⟩ := start
  have trim : ∃ text', trimmed (blanks ++ 35#8 :: rest) = 35#8 :: text' := by
    have visible : (35#8 :: text).rdropWhile isSpace ≠ [] := fun empty =>
      absurd (List.rdropWhile_eq_nil_iff.mp empty 35#8 List.mem_cons_self)
        (by decide)
    obtain ⟨first, text', same⟩ := List.exists_cons_of_ne_nil visible
    have isPrefix := List.rdropWhile_prefix isSpace (35#8 :: text)
    rw [same, List.cons_prefix_cons] at isPrefix
    rw [isPrefix.1] at same
    refine ⟨text', ?_⟩
    rw [trimmed, start]
    exact same
  obtain ⟨text', trim⟩ := trim
  rw [quotedValue, trim]
  rfl

/-- What follows a line, and the lines that `fgets` finds there. -/
inductive Ends : Text → List Text → Prop where
  | newline (rest : Text) : Ends (10#8 :: rest) (fgets [] rest)
  | file : Ends [] []

theorem fgets_cons (line rest : Text) (byte : BitVec 8) :
    fgets line (byte :: rest) =
      if byte = 10#8 ∨ line.length + 1 = maxLine - 1 then
        (line ++ [byte]) :: fgets [] rest
      else fgets (line ++ [byte]) rest := by
  rw [fgets]

variable {later lines : List Text} {tail : Text}

/-- A line is read whole, with its newline unless it only just fits into the
buffer: the newline is then a line of its own. -/
theorem fgets_line (ends : Ends tail later) {text : Text} (oneLine : 10#8 ∉ text)
    (visible : begun ++ text ≠ []) (short : begun.length + text.length < maxLine) :
    ∃ newline blanks, (∀ c ∈ newline, isSpace c = true) ∧
      (∀ line ∈ blanks, ∀ c ∈ line, isSpace c = true) ∧
      fgets begun (text ++ tail) =
        (begun ++ text ++ newline) :: (blanks ++ later) := by
  have blank : ∀ c ∈ [10#8], isSpace c = true := by decide
  induction text generalizing begun with
  | nil =>
      rw [List.append_nil] at visible ⊢
      cases ends with
      | newline rest =>
          refine ⟨[10#8], [], blank, List.forall_mem_nil _, ?_⟩
          rw [List.nil_append, fgets_cons, if_pos (.inl rfl)]
          rfl
      | file =>
          refine ⟨[], [], List.forall_mem_nil _, List.forall_mem_nil _, ?_⟩
          rw [List.nil_append, fgets, if_neg visible, List.append_nil]
          rfl
  | cons c text induction =>
      rw [List.mem_cons, not_or] at oneLine
      rw [List.length_cons] at short
      rw [List.cons_append, fgets_cons, List.append_cons begun c text]
      split
      · rename_i full
        have full := full.resolve_left fun same => oneLine.1 same.symm
        have last : text = [] := by
          rw [maxLine] at full short
          exact List.length_eq_zero_iff.mp (by omega)
        rw [last]
        cases ends with
        | newline rest =>
            refine ⟨[], [[10#8]], List.forall_mem_nil _,
              List.forall_mem_singleton.mpr blank, ?_⟩
            rw [List.nil_append, fgets_cons, if_pos (.inl rfl),
              List.append_nil, List.append_nil]
            rfl
        | file =>
            refine ⟨[], [], List.forall_mem_nil _, List.forall_mem_nil _, ?_⟩
            rw [List.nil_append, List.append_nil, List.append_nil, fgets]
            rfl
      · have visible : begun ++ [c] ++ text ≠ [] := by simp
        refine induction oneLine.2 visible ?_
        rw [List.length_append, List.length_singleton]
        omega

/-- The pieces of a blank line are blank. -/
theorem fgets_blanks (ends : Ends tail later) {text : Text}
    (begunBlank : ∀ c ∈ begun, isSpace c = true)
    (textBlank : ∀ c ∈ text, isSpace c = true) :
    ∃ blanks, (∀ line ∈ blanks, ∀ c ∈ line, isSpace c = true) ∧
      fgets begun (text ++ tail) = blanks ++ later := by
  induction text generalizing begun with
  | nil =>
      cases ends with
      | newline rest =>
          refine ⟨[begun ++ [10#8]], List.forall_mem_singleton.mpr
            (List.forall_mem_append.mpr ⟨begunBlank, by decide⟩), ?_⟩
          rw [List.nil_append, fgets_cons, if_pos (.inl rfl)]
          rfl
      | file =>
          rw [List.append_nil, fgets]
          split
          · exact ⟨[], List.forall_mem_nil _, rfl⟩
          · exact ⟨[begun], List.forall_mem_singleton.mpr begunBlank, rfl⟩
  | cons c text induction =>
      rw [List.forall_mem_cons] at textBlank
      have extended : ∀ c' ∈ begun ++ [c], isSpace c' = true :=
        List.forall_mem_append.mpr ⟨begunBlank,
          List.forall_mem_singleton.mpr textBlank.1⟩
      rw [List.cons_append, fgets_cons]
      split
      · obtain ⟨blanks, allBlank, same⟩ :=
          induction (List.forall_mem_nil _) textBlank.2
        refine ⟨(begun ++ [c]) :: blanks,
          List.forall_mem_cons.mpr ⟨extended, allBlank⟩, ?_⟩
        rw [same]
        rfl
      · exact induction extended textBlank.2

/-- The tokens that the lines of a file stand for. -/
inductive Reads (dictLevel : BitVec 32) : List Text → List Text → Prop where
  | nil : Reads dictLevel [] []
  | skipped {line : Text} {skip : Skip} {lines tokens : List Text}
      (quoted : quotedValue dictLevel line = .error skip)
      (rest : Reads dictLevel lines tokens) :
      Reads dictLevel (line :: lines) tokens
  | keyword {line value token : Text} {lines tokens : List Text}
      (quoted : quotedValue dictLevel line = .ok value)
      (spelled : Spelled token value) (small : token.length ≤ maxDictFile)
      (rest : Reads dictLevel lines tokens) :
      Reads dictLevel (line :: lines) (token :: tokens)

theorem Reads.append {tokens laterTokens : List Text}
    (first : Reads dictLevel lines tokens) (second : Reads dictLevel later laterTokens) :
    Reads dictLevel (lines ++ later) (tokens ++ laterTokens) := by
  induction first with
  | nil => exact second
  | skipped quoted _ induction => exact .skipped quoted induction
  | keyword quoted spelled small _ induction =>
      exact .keyword quoted spelled small induction

theorem reads_blanks {blanks : List Text}
    (allBlank : ∀ line ∈ blanks, ∀ c ∈ line, isSpace c = true) :
    Reads dictLevel blanks [] := by
  induction blanks with
  | nil => exact .nil
  | cons line blanks induction =>
      rw [List.forall_mem_cons] at allBlank
      exact .skipped (quotedValue_blank allBlank.1) (induction allBlank.2)

theorem Line.reads (line : Line dictLevel) (ends : Ends tail later) :
    ∃ pieces, Reads dictLevel pieces line.tokens ∧
      fgets [] (line.text ++ tail) = pieces ++ later := by
  have blankIsSpace : ∀ blanks : Text, (∀ c ∈ blanks, isBlank c = true) →
      ∀ c ∈ blanks, isSpace c = true := fun _ allBlank c mem =>
    isSpace_of_isBlank (allBlank c mem)
  have noNewline : ∀ c, isBlank c = true → c ≠ 10#8 := by decide
  cases line with
  | keyword frame token value spelled small short =>
      have oneLine : 10#8 ∉ frame.text value := by
        intro mem
        rw [Frame.text, List.mem_append, List.mem_append] at mem
        rcases mem with (left | core) | right
        · exact noNewline _ (frame.leftBlank _ left) rfl
        · exact (frame.clean spelled _ core).2 rfl
        · exact noNewline _ (frame.rightBlank _ right) rfl
      have visible : [] ++ frame.text value ≠ [] := by simp [Frame.text]
      obtain ⟨newline, blanks, newlineBlank, allBlank, same⟩ :=
        fgets_line ends oneLine visible
          (by rwa [List.length_nil, Nat.zero_add])
      have quoted := frame.quotedValue_text spelled newlineBlank
      refine ⟨(frame.text value ++ newline) :: blanks, ?_, same⟩
      rw [Line.tokens]
      split
      · rename_i empty
        rw [if_pos empty] at quoted
        exact .skipped quoted (reads_blanks allBlank)
      · rename_i visible
        rw [if_neg visible] at quoted
        exact .keyword quoted spelled small (reads_blanks allBlank)
  | blank blanks allBlank =>
      obtain ⟨pieces, piecesBlank, same⟩ := fgets_blanks ends
        (List.forall_mem_nil _) (blankIsSpace blanks allBlank)
      exact ⟨pieces, reads_blanks piecesBlank, same⟩
  | comment blanks remark allBlank noLine short =>
      have oneLine : 10#8 ∉ blanks ++ 35#8 :: remark := by
        intro mem
        rw [List.mem_append, List.mem_cons] at mem
        rcases mem with left | hash | right
        · exact noNewline _ (allBlank _ left) rfl
        · exact absurd hash (by decide)
        · exact noLine right
      have visible : [] ++ (blanks ++ 35#8 :: remark) ≠ [] := by simp
      obtain ⟨newline, more, newlineBlank, moreBlank, same⟩ :=
        fgets_line ends oneLine visible
          (by rwa [List.length_nil, Nat.zero_add])
      have quoted : quotedValue dictLevel
          ([] ++ (blanks ++ 35#8 :: remark) ++ newline) = .error .comment := by
        rw [List.nil_append, List.append_assoc, List.cons_append]
        exact quotedValue_comment _ (blankIsSpace blanks allBlank)
      exact ⟨_, .skipped quoted (reads_blanks moreBlank), same⟩

theorem reads_fileText (lines : List (Line dictLevel)) (last : Line dictLevel) :
    Reads dictLevel (fgets [] (fileText lines last))
      (lines.flatMap Line.tokens ++ last.tokens) := by
  induction lines with
  | nil =>
      obtain ⟨pieces, reads, same⟩ := last.reads .file
      rw [List.append_nil, List.append_nil] at same
      rw [fileText, List.flatMap_nil, List.nil_append, same]
      exact reads
  | cons line lines induction =>
      obtain ⟨pieces, reads, same⟩ := line.reads (.newline (fileText lines last))
      have text : fileText (line :: lines) last =
          line.text ++ 10#8 :: fileText lines last := by
        simp only [fileText, List.flatMap_cons, List.append_assoc,
          List.cons_append, List.nil_append]
      rw [text, same, List.flatMap_cons, List.append_assoc]
      exact reads.append induction

/-- What is read is loaded, as long as there is memory. -/
theorem loadLines_reads {tokens : List Text} (reads : Reads dictLevel lines tokens)
    (allocates : Nat → Bool) {fuel : Nat} (enough : maxDictFile < fuel) (curLine : Nat)
    (loaded : LoadedExtras) :
    loadLines dictLevel allocates fuel curLine lines loaded =
        some (.ok (tokens.foldl LoadedExtras.add loaded)) ∨
      loadLines dictLevel allocates fuel curLine lines loaded = some (.error ()) ∧
        ∃ line, allocates line = false := by
  induction reads generalizing curLine loaded with
  | nil => exact .inl rfl
  | skipped quoted _ induction =>
      rw [loadLines, quoted]
      exact induction _ _
  | keyword quoted spelled small _ induction =>
      have copied := copyValue_spelled spelled
        (Nat.lt_of_le_of_lt small enough) []
      rw [List.nil_append] at copied
      rw [loadLines, quoted]
      simp only
      cases memory : allocates (curLine + 1) with
      | false => exact .inr ⟨rfl, curLine + 1, memory⟩
      | true =>
          rw [if_pos rfl, copied]
          exact induction _ _

theorem extras_foldl_add {tokens : List Text}
    (small : ∀ token ∈ tokens, token.length ≤ maxDictFile)
    (loaded : LoadedExtras) :
    (tokens.foldl LoadedExtras.add loaded).extras = loaded.extras ++ tokens := by
  induction tokens generalizing loaded with
  | nil => exact (List.append_nil _).symm
  | cons token tokens induction =>
      rw [List.forall_mem_cons] at small
      rw [List.foldl_cons, induction small.2, LoadedExtras.add,
        if_neg (Nat.not_lt.mpr small.1), List.append_assoc]
      rfl

theorem Reads.small {tokens : List Text} (reads : Reads dictLevel lines tokens) :
    ∀ token ∈ tokens, token.length ≤ maxDictFile := by
  induction reads with
  | nil => exact List.forall_mem_nil _
  | skipped _ _ induction => exact induction
  | keyword _ _ small _ induction =>
      exact List.forall_mem_cons.mpr ⟨small, induction⟩

end AFLPlusPlus.Dictionary
