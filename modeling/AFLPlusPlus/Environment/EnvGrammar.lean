import AFLPlusPlus.Environment.ExtractEnv
import Mathlib.Data.List.TakeWhile

/-!
# The strings with variables for the target

What `AFL_TARGET_ENV` may be: items of a name and a value, with spaces between
them.  The scanner takes a space too much behind a value without quotes.
-/

namespace AFLPlusPlus.ExtractEnv

/-- A name has letters, digits and underscores, and no digit at its start. -/
structure IsName (name : CString) : Prop where
  letters : ∀ c ∈ name, nameChar c = true
  start : ∃ first rest, name = first :: rest ∧ first.isDigit = false

/-- A variable as it is written, and whether its value is quoted. -/
inductive IsItem : Bool → Variable → CString → Prop where
  | bare {name value : CString} (isName : IsName name) (nonempty : value ≠ [])
      (noSpace : ' ' ∉ value)
      (noQuote : ∀ c ∈ value.head?, isQuote c = false) :
      IsItem false (name, value) (name ++ '=' :: value)
  | quoted {name value : CString} {quote : Char} (isName : IsName name)
      (isQuote' : isQuote quote = true) (closes : quote ∉ value) :
      IsItem true (name, value) (name ++ '=' :: quote :: (value ++ [quote]))

def spaces (count : Nat) : CString := List.replicate count ' '

/-- Items with spaces between them, at least `gap` behind a value without
quotes. -/
inductive Items (gap : Nat) : List Variable → CString → Prop where
  | last {quoted : Bool} {item : Variable} {text : CString}
      (isItem : IsItem quoted item text) (count : Nat) :
      Items gap [item] (text ++ spaces count)
  | cons {quoted : Bool} {item : Variable} {text : CString}
      (isItem : IsItem quoted item text) {count : Nat}
      (apart : (if quoted then 1 else gap) ≤ count)
      {items : List Variable} {rest : CString} (others : Items gap items rest) :
      Items gap (item :: items) (text ++ (spaces count ++ rest))

/-- The strings of the grammar, where spaces may stand at both ends, too. -/
def Grammar (gap : Nat) (items : List Variable) (envStr : CString) : Prop :=
  ∃ count rest, envStr = spaces count ++ rest ∧ Items gap items rest

/-- What may stand behind an item for the scanner to take it. -/
def Followed (quoted : Bool) (tail : CString) : Prop :=
  if quoted then tail = [] ∨ tail.head? = some ' '
  else tail = [] ∨ tail = [' '] ∨ [' ', ' '] <+: tail

/-- The first item is one that the scanner takes. -/
def BeginsWithItem (envStr : CString) : Prop :=
  ∃ count quoted item text tail, envStr = spaces count ++ (text ++ tail) ∧
    IsItem quoted item text ∧ Followed quoted tail

theorem takeWhile_append_stop {α : Type} {p : α → Bool} {kept rest : List α}
    (all : ∀ x ∈ kept, p x = true) (stops : ∀ x ∈ rest.head?, p x = false) :
    (kept ++ rest).takeWhile p = kept ∧ (kept ++ rest).dropWhile p = rest := by
  rw [List.takeWhile_append_of_pos all, List.dropWhile_append_of_pos all]
  cases rest with
  | nil => simp
  | cons x rest =>
      have stop := stops x rfl
      simp [stop]

theorem IsName.readItem {name : CString} (isName : IsName name)
    (rest : CString) :
    readItem (name ++ '=' :: rest) =
      (readValue rest).map fun value => ((name, value.1), value.2) := by
  have named : readName (name ++ '=' :: rest) = some (name, rest) :=
    readName_eq_some.mpr ⟨rfl, isName.letters⟩
  obtain ⟨first, behind, rfl, noDigit⟩ := isName.start
  have noEquals : first ≠ '=' := by
    rintro rfl
    have letter := isName.letters '=' List.mem_cons_self
    exact absurd letter (by decide)
  rw [ExtractEnv.readItem, if_neg (by simp [noDigit, noEquals]), named]
  rfl

variable {finished quoted : Bool} {ahead rest text : CString} {items : List Variable}
    {gap : Nat} {item : Variable}

/-- An item of the grammar that is followed by a space or the end is read, but
if its value has no quotes the space goes, and another one must follow. -/
theorem IsItem.readItem (isItem : IsItem quoted item text) {tail : CString}
    (ends : tail = [] ∨ tail.head? = some ' ') :
    readItem (text ++ tail) =
      if quoted then some (item, tail)
      else if tail.tail = [] ∨ tail.tail.head? = some ' ' then
        some (item, tail.tail)
      else none := by
  cases isItem with
  | @bare name value isName nonempty noSpace noQuote =>
      have split := @takeWhile_append_stop Char (· ≠ ' ') value tail
        (by
          intro c member
          apply decide_eq_true
          rintro rfl
          exact noSpace member)
        (by
          intro c head
          rcases ends with rfl | isSpace
          · cases head
          · rw [isSpace] at head
            cases head
            rfl)
      rw [List.append_assoc, List.cons_append, isName.readItem]
      obtain ⟨c, rest, rfl⟩ := List.exists_cons_of_ne_nil nonempty
      have letter : c ≠ ' ' := by
        rintro rfl
        exact noSpace List.mem_cons_self
      have bare : isQuote c = false := noQuote c rfl
      rw [List.cons_append, readValue, if_neg letter, bare]
      simp only [Bool.false_eq_true, if_false]
      rw [readUpTo, ← List.cons_append, split.1, split.2]
      cases tail with
      | nil => simp
      | cons d tail =>
          by_cases another : tail = [] ∨ tail.head? = some ' '
          · simp [another]
          · simp [another]
  | @quoted name value quote isName isQuote' closes =>
      have split := @takeWhile_append_stop Char (· ≠ quote) value
        (quote :: tail)
        (by
          intro c member
          apply decide_eq_true
          rintro rfl
          exact closes member)
        (by
          intro c head
          cases head
          simp)
      have noSpace : quote ≠ ' ' := by
        rintro rfl
        exact absurd isQuote' (by decide)
      have text : name ++ '=' :: quote :: (value ++ [quote]) ++ tail =
          name ++ '=' :: (quote :: (value ++ quote :: tail)) := by
        simp
      rw [text, isName.readItem, readValue, if_neg noSpace, if_pos isQuote',
        readUpTo, split.1, split.2]
      simp [ends]

/-- What is read up to a closing symbol stands in the string with it. -/
theorem readUpTo_eq_some {closingSym : Char} {value : CString}
    (found : readUpTo closingSym ahead = some (value, rest)) :
    closingSym ∉ value ∧ (rest = [] ∨ rest.head? = some ' ') ∧
      (ahead = value ++ closingSym :: rest ∨
        (closingSym = ' ' ∧ ahead = value ∧ rest = [])) := by
  have parts : ahead.takeWhile (· ≠ closingSym) ++
      ahead.dropWhile (· ≠ closingSym) = ahead :=
    List.takeWhile_append_dropWhile
  have unclosed : closingSym ∉ ahead.takeWhile (· ≠ closingSym) := by
    intro member
    have differs := List.mem_takeWhile_imp member
    simp at differs
  unfold readUpTo at found
  split at found
  · rename_i empty
    rw [empty, List.append_nil] at parts
    split at found
    · rename_i blank
      cases found
      exact ⟨unclosed, .inl rfl, .inr ⟨blank, parts.symm, rfl⟩⟩
    · cases found
  · rename_i c behind isBehind
    have closes : c = closingSym := by
      have head := List.head?_dropWhile_not (· ≠ closingSym) ahead
      rw [isBehind] at head
      simpa using head
    rw [isBehind, closes] at parts
    split at found
    · rename_i follows
      cases found
      exact ⟨unclosed, follows, .inl parts.symm⟩
    · cases found

theorem readItem_isItem (found : readItem ahead = some (item, rest)) :
    ∃ quoted text tail, ahead = text ++ tail ∧ IsItem quoted item text ∧
      Followed quoted tail := by
  unfold readItem at found
  split at found
  · cases found
  · rename_i starts
    obtain ⟨⟨name, behind⟩, isName, valued⟩ := Option.bind_eq_some_iff.mp found
    obtain ⟨⟨value, tail⟩, isValue, same⟩ := Option.map_eq_some_iff.mp valued
    cases same
    obtain ⟨rfl, letters⟩ := readName_eq_some.mp isName
    have named : IsName name := by
      refine ⟨letters, ?_⟩
      cases name with
      | nil => simp at starts
      | cons first name => exact ⟨first, name, rfl, by simp_all⟩
    cases behind with
    | nil => cases isValue
    | cons c ahead =>
        rw [readValue] at isValue
        split_ifs at isValue with blank quote
        · obtain ⟨closes, follows, closed | ⟨isBlank, -, -⟩⟩ :=
            readUpTo_eq_some isValue
          · refine ⟨true, _, tail, ?_, .quoted named quote closes, ?_⟩
            · rw [closed]
              simp
            · exact follows
          · exact absurd isBlank blank
        · obtain ⟨noSpace, follows, same⟩ := readUpTo_eq_some isValue
          have isBare : ∀ tail, c :: ahead = value ++ tail →
              tail.head? ≠ some c → IsItem false (name, value)
                (name ++ '=' :: value) := by
            intro tail parts other
            cases value with
            | nil =>
                refine absurd ?_ other
                rw [← List.nil_append tail, ← parts]
                rfl
            | cons first value =>
                obtain ⟨rfl, -⟩ := List.cons.inj parts
                refine .bare named (List.cons_ne_nil _ _) noSpace ?_
                intro d head
                obtain rfl := Option.some.inj head
                simpa using quote
          rcases same with closed | ⟨-, same, rfl⟩
          · refine ⟨false, _, ' ' :: tail, ?_, isBare _ closed ?_, ?_⟩
            · rw [closed]
              simp
            · intro same
              exact blank (Option.some.inj same).symm
            · cases tail with
              | nil => exact .inr (.inl rfl)
              | cons d tail =>
                  have isSpace : d = ' ' := by simpa using follows
                  subst isSpace
                  exact .inr (.inr ⟨tail, rfl⟩)
          · refine ⟨false, _, [], ?_, isBare [] ?_ (Option.some_ne_none c).symm, .inl rfl⟩
            · rw [same, List.append_nil]
            · rw [same, List.append_nil]

theorem afterSpaces_spaces (count : Nat) (rest : CString) :
    afterSpaces (spaces count ++ rest) = afterSpaces rest := by
  apply List.dropWhile_append_of_pos
  intro c member
  exact decide_eq_true (List.eq_of_mem_replicate member)

theorem IsItem.afterSpaces (isItem : IsItem quoted item text) (tail : CString) :
    afterSpaces (text ++ tail) = text ++ tail ∧ 1 < (text ++ tail).length := by
  have named : ∀ name rest, IsName name →
      ExtractEnv.afterSpaces (name ++ '=' :: rest) = name ++ '=' :: rest ∧
        1 < (name ++ '=' :: rest).length := by
    intro name rest isName
    obtain ⟨first, behind, rfl, -⟩ := isName.start
    have letter := isName.letters first List.mem_cons_self
    have noSpace : first ≠ ' ' := by
      rintro rfl
      exact absurd letter (by decide)
    constructor
    · simp [ExtractEnv.afterSpaces, noSpace]
    · simp only [List.length_append, List.length_cons]
      omega
  cases isItem with
  | bare isName nonempty noSpace noQuote =>
      rw [List.append_assoc, List.cons_append]
      exact named _ _ isName
  | quoted isName isQuote' closes =>
      rw [List.append_assoc, List.cons_append]
      exact named _ _ isName

theorem scan_iff {ahead : CString} (long : 1 < (afterSpaces ahead).length)
    {items : List Variable} {finished : Bool} :
    Scan ahead items finished ↔
      match readItem (afterSpaces ahead) with
      | none => items = [] ∧ finished = false
      | some (item, rest) =>
          ∃ others, items = item :: others ∧ Scan rest others finished := by
  cases read : readItem (afterSpaces ahead) with
  | none =>
      constructor
      · intro scan
        cases scan with
        | stops short => exact absurd short (Nat.not_le.mpr long)
        | fails long refused => exact ⟨rfl, rfl⟩
        | takes long found others =>
            rw [read] at found
            cases found
      · rintro ⟨rfl, rfl⟩
        exact .fails long read
  | some taken =>
      constructor
      · intro scan
        cases scan with
        | stops short => exact absurd short (Nat.not_le.mpr long)
        | fails long refused =>
            rw [read] at refused
            cases refused
        | takes long found others =>
            rw [read] at found
            cases found
            exact ⟨_, rfl, others⟩
      · rintro ⟨others, rfl, scan⟩
        exact .takes long read scan

theorem scan_short_iff (short : (afterSpaces ahead).length ≤ 1) :
    Scan ahead items finished ↔ items = [] ∧ finished = true := by
  constructor
  · intro scan
    cases scan with
    | stops _ => exact ⟨rfl, rfl⟩
    | fails long _ => exact absurd short (Nat.not_le.mpr long)
    | takes long _ _ => exact absurd short (Nat.not_le.mpr long)
  · rintro ⟨rfl, rfl⟩
    exact .stops short

theorem Scan.unique {others : List Variable} {ended : Bool}
    (scan : Scan ahead items finished) (other : Scan ahead others ended) :
    items = others ∧ finished = ended := by
  induction scan generalizing others ended with
  | stops short =>
      obtain ⟨rfl, rfl⟩ := (scan_short_iff short).mp other
      exact ⟨rfl, rfl⟩
  | fails long refused =>
      have step := (scan_iff long).mp other
      rw [refused] at step
      exact ⟨step.1.symm, step.2.symm⟩
  | takes long found _ induction =>
      have step := (scan_iff long).mp other
      rw [found] at step
      obtain ⟨behind, rfl, scan⟩ := step
      obtain ⟨rfl, rfl⟩ := induction scan
      exact ⟨rfl, rfl⟩

theorem scan_spaces_iff {count : Nat} {rest : CString} {items : List Variable}
    {finished : Bool} :
    Scan (spaces count ++ rest) items finished ↔ Scan rest items finished := by
  have same := afterSpaces_spaces count rest
  by_cases short : (afterSpaces rest).length ≤ 1
  · rw [scan_short_iff short, scan_short_iff (by rwa [same])]
  · have long := Nat.lt_of_not_le short
    rw [scan_iff long, scan_iff (by rwa [same]), same]

/-- The scan of an item that stands at the start. -/
theorem IsItem.scan_iff {quoted : Bool} {item : Variable} {text : CString}
    (isItem : IsItem quoted item text) {tail : CString}
    (ends : tail = [] ∨ tail.head? = some ' ') {items : List Variable}
    {finished : Bool} :
    Scan (text ++ tail) items finished ↔
      if quoted = true ∨ tail.tail = [] ∨ tail.tail.head? = some ' ' then
        ∃ others, items = item :: others ∧ Scan tail others finished
      else items = [] ∧ finished = false := by
  obtain ⟨same, long⟩ := isItem.afterSpaces tail
  have step := @ExtractEnv.scan_iff (text ++ tail) (by rwa [same]) items
    finished
  rw [same, isItem.readItem ends] at step
  rw [step]
  have skip : ∀ others, Scan tail.tail others finished ↔
      Scan tail others finished := by
    intro others
    rcases ends with rfl | isSpace
    · rfl
    · cases tail with
      | nil => rfl
      | cons d tail =>
          obtain rfl := Option.some.inj isSpace
          exact (@scan_spaces_iff 1 tail others finished).symm
  cases quoted with
  | true => simp
  | false =>
      by_cases another : tail.tail = [] ∨ tail.tail.head? = some ' '
      · rw [if_neg Bool.false_ne_true, if_pos another, if_pos (.inr another)]
        simp only [skip]
      · have stuck : ¬(false = true ∨ tail.tail = [] ∨
            tail.tail.head? = some ' ') := by
          simpa using another
        rw [if_neg Bool.false_ne_true, if_neg another, if_neg stuck]

theorem head_spaces {count : Nat} (positive : 0 < count) (rest : CString) :
    (spaces count ++ rest).head? = some ' ' := by
  obtain ⟨count, rfl⟩ := Nat.exists_eq_succ_of_ne_zero
    (Nat.ne_of_gt positive)
  rfl

theorem scan_spaces (count : Nat) :
    Scan (spaces count) items finished ↔ items = [] ∧ finished = true := by
  have short : (afterSpaces []).length ≤ 1 := Nat.zero_le _
  rw [← scan_short_iff short, ← @scan_spaces_iff count [], List.append_nil]

theorem spaces_ends (count : Nat) :
    spaces count = [] ∨ (spaces count).head? = some ' ' := by
  cases count with
  | zero => exact .inl rfl
  | succ count => exact .inr rfl

theorem IsItem.scan_last (isItem : IsItem quoted item text) (count : Nat) :
    Scan (text ++ spaces count) [item] true := by
  have follows : quoted = true ∨ (spaces count).tail = [] ∨
      (spaces count).tail.head? = some ' ' := by
    rcases count with - | - | count
    · exact .inr (.inl rfl)
    · exact .inr (.inl rfl)
    · exact .inr (.inr rfl)
  rw [isItem.scan_iff (spaces_ends count), if_pos follows]
  exact ⟨[], rfl, (scan_spaces count).mpr ⟨rfl, rfl⟩⟩

theorem Items.head (isItems : Items gap items rest) :
    rest ≠ [] ∧ rest.head? ≠ some ' ' := by
  have starts : ∀ {quoted item text} (tail : CString),
      IsItem quoted item text →
        text ++ tail ≠ [] ∧ (text ++ tail).head? ≠ some ' ' := by
    intro quoted item text tail isItem
    obtain ⟨same, long⟩ := isItem.afterSpaces tail
    constructor
    · intro empty
      rw [empty] at long
      cases long
    · intro isSpace
      have head := List.head?_dropWhile_not (· = ' ') (text ++ tail)
      unfold ExtractEnv.afterSpaces at same
      rw [same, isSpace] at head
      simp at head
  cases isItems with
  | last isItem count => exact starts _ isItem
  | cons isItem apart others => exact starts _ isItem

/-- The scan of an item that others follow. -/
theorem IsItem.scan_cons (isItem : IsItem quoted item text) {count : Nat}
    (positive : 0 < count) {before : List Variable} (isItems : Items gap before rest) :
    Scan (text ++ (spaces count ++ rest)) items finished ↔
      if (if quoted then 1 else 2) ≤ count then
        ∃ others, items = item :: others ∧ Scan rest others finished
      else items = [] ∧ finished = false := by
  obtain ⟨nonempty, noSpace⟩ := isItems.head
  have follows : (quoted = true ∨ (spaces count ++ rest).tail = [] ∨
      (spaces count ++ rest).tail.head? = some ' ') ↔
        (if quoted then 1 else 2) ≤ count := by
    rcases count with - | - | count
    · cases positive
    · have tail : (spaces 1 ++ rest).tail = rest := rfl
      rw [tail]
      cases quoted with
      | true => simp
      | false => simp [nonempty, noSpace]
    · refine iff_of_true (.inr (.inr rfl)) ?_
      cases quoted with
      | true => simp
      | false => simp
  rw [isItem.scan_iff (.inr (head_spaces positive rest))]
  simp only [follows, scan_spaces_iff]

theorem Items.scan (isItems : Items 2 items rest) : Scan rest items true := by
  induction isItems with
  | last isItem count => exact isItem.scan_last count
  | @cons quoted item text isItem count apart items rest others induction =>
      have positive : 0 < count := by
        split at apart <;> omega
      rw [isItem.scan_cons positive others, if_pos apart]
      exact ⟨items, rfl, induction⟩

theorem Items.apart {items : List Variable} {rest : CString}
    (isItems : Items 1 items rest) {taken : List Variable}
    (scan : Scan rest taken true) : taken = items ∧ Items 2 items rest := by
  induction isItems generalizing taken with
  | last isItem count =>
      obtain ⟨rfl, -⟩ := scan.unique (isItem.scan_last count)
      exact ⟨rfl, .last isItem count⟩
  | @cons quoted item text isItem count apart items rest others induction =>
      have positive : 0 < count := by
        split at apart <;> omega
      rw [isItem.scan_cons positive others] at scan
      by_cases far : (if quoted then 1 else 2) ≤ count
      · rw [if_pos far] at scan
        obtain ⟨behind, rfl, scan⟩ := scan
        obtain ⟨rfl, isItems⟩ := induction scan
        exact ⟨rfl, .cons isItem far isItems⟩
      · rw [if_neg far] at scan
        cases scan.2

theorem Items.mono (isItems : Items 2 items rest) : Items 1 items rest := by
  induction isItems with
  | last isItem count => exact .last isItem count
  | cons isItem apart others induction =>
      refine .cons isItem (Nat.le_trans ?_ apart) induction
      split
      · exact Nat.le_refl 1
      · exact Nat.le_succ 1

theorem Items.nonempty (isItems : Items gap items rest) : items ≠ [] := by
  cases isItems with
  | last isItem count => exact List.cons_ne_nil _ _
  | cons isItem apart others => exact List.cons_ne_nil _ _

theorem beginsWithItem_iff {envStr : CString} (scan : Scan envStr items finished) :
    BeginsWithItem envStr ↔ items ≠ [] := by
  constructor
  · rintro ⟨count, quoted, item, text, tail, rfl, isItem, followed⟩
    rw [scan_spaces_iff] at scan
    have ends : tail = [] ∨ tail.head? = some ' ' := by
      cases quoted with
      | true => exact followed
      | false =>
          rcases followed with empty | rfl | ⟨rest, rfl⟩
          · exact .inl empty
          · exact .inr rfl
          · exact .inr rfl
    have follows : quoted = true ∨ tail.tail = [] ∨ tail.tail.head? = some ' ' := by
      cases quoted with
      | true => exact .inl rfl
      | false =>
          rcases followed with rfl | rfl | ⟨rest, rfl⟩
          · exact .inr (.inl rfl)
          · exact .inr (.inl rfl)
          · exact .inr (.inr rfl)
    rw [isItem.scan_iff ends, if_pos follows] at scan
    obtain ⟨others, rfl, -⟩ := scan
    exact List.cons_ne_nil _ _
  · intro taken
    cases scan with
    | stops short => exact absurd rfl taken
    | fails long refused => exact absurd rfl taken
    | takes long found others =>
        obtain ⟨quoted, text, tail, same, isItem, followed⟩ := readItem_isItem found
        have parts : envStr.takeWhile (· = ' ') ++ afterSpaces envStr =
            envStr := List.takeWhile_append_dropWhile
        have isSpaces : envStr.takeWhile (· = ' ') =
            spaces (envStr.takeWhile (· = ' ')).length := by
          refine List.eq_replicate_of_mem fun c member => ?_
          have isSpace := List.mem_takeWhile_imp member
          simpa using isSpace
        refine ⟨(envStr.takeWhile (· = ' ')).length, quoted, _, text, tail,
          ?_, isItem, followed⟩
        rw [← same, ← isSpaces, parts]

/-- What `extract_and_set_env` is to do: it accepts the strings of the grammar
and sets their variables, or it sets nothing. -/
structure ExtractsExactly (envStr : CString) (ret : Bool)
    (env : List Variable) : Prop where
  accepts : ret = true ↔ ∃ items, Grammar 1 items envStr
  sets : ret = true → ∀ items, Grammar 1 items envStr → env = items
  clean : ret = false → env = []

/-- When `extract_and_set_env` does so.  It always returns. -/
theorem extractAndSetEnv_exact_iff {envStr : CString}
    (isText : nul ∉ envStr) :
    (∃ ret env, extractAndSetEnv (some envStr) = .ok (ret, env) ∧
        ExtractsExactly envStr ret env) ↔
      (∃ items, Grammar 2 items envStr) ∨
        ((¬∃ items, Grammar 1 items envStr) ∧ ¬BeginsWithItem envStr) := by
  obtain ⟨taken, finished, scan⟩ := Scan.total envStr
  have returned := extractAndSetEnv_eq isText scan
  have begins := beginsWithItem_iff scan
  have apart : ∀ items, Grammar 1 items envStr → finished = true →
      taken = items ∧ Grammar 2 items envStr := by
    rintro items ⟨count, rest, rfl, isItems⟩ rfl
    obtain ⟨rfl, far⟩ := isItems.apart (scan_spaces_iff.mp scan)
    exact ⟨rfl, count, rest, rfl, far⟩
  constructor
  · rintro ⟨ret, env, result, exactly⟩
    rw [returned] at result
    cases result
    by_cases inGrammar : ∃ items, Grammar 1 items envStr
    · have accepted := exactly.accepts.mpr inGrammar
      obtain ⟨items, isItems⟩ := inGrammar
      exact .inl ⟨items, (apart items isItems (by simp_all)).2⟩
    · refine .inr ⟨inGrammar, ?_⟩
      rw [begins, not_not]
      apply exactly.clean
      rw [← Bool.not_eq_true]
      exact fun accepted => inGrammar (exactly.accepts.mp accepted)
  · rintro (⟨items, count, rest, rfl, far⟩ | ⟨notInGrammar, noItem⟩)
    · obtain ⟨rfl, rfl⟩ := scan.unique (scan_spaces_iff.mpr far.scan)
      have all : (true && !taken.isEmpty) = true := by
        simpa using far.nonempty
      rw [all] at returned
      refine ⟨true, taken, returned, ?_, ?_, nofun⟩
      · exact iff_of_true rfl ⟨taken, count, rest, rfl, far.mono⟩
      · intro _ items isItems
        exact (apart items isItems rfl).1
    · have none : taken = [] := by
        rw [begins, not_not] at noItem
        exact noItem
      subst none
      refine ⟨_, _, returned, ?_, ?_, fun _ => rfl⟩
      · refine iff_of_false (by simp) notInGrammar
      · intro accepted
        simp at accepted

theorem extractAndSetEnv_exact_iff_twoSpaces :
    nul ∉ ['A', '=', '1', ' ', ' ', 'B', '=', '2'] ∧
      ((∃ ret env, extractAndSetEnv
            (some ['A', '=', '1', ' ', ' ', 'B', '=', '2']) = .ok (ret, env) ∧
          ExtractsExactly ['A', '=', '1', ' ', ' ', 'B', '=', '2'] ret env) ↔
        (∃ items, Grammar 2 items ['A', '=', '1', ' ', ' ', 'B', '=', '2']) ∨
        ((¬∃ items, Grammar 1 items ['A', '=', '1', ' ', ' ', 'B', '=', '2']) ∧
          ¬BeginsWithItem ['A', '=', '1', ' ', ' ', 'B', '=', '2'])) :=
  ⟨by decide, extractAndSetEnv_exact_iff (by decide)⟩

/-- Two variables with one space between them are refused. -/
theorem extractAndSetEnv_oneSpace :
    Grammar 1 [(['A'], ['1']), (['B'], ['2'])]
        ['A', '=', '1', ' ', 'B', '=', '2'] ∧
      extractAndSetEnv (some ['A', '=', '1', ' ', 'B', '=', '2']) = .ok (false, []) ∧
      ¬∃ ret env, extractAndSetEnv
            (some ['A', '=', '1', ' ', 'B', '=', '2']) = .ok (ret, env) ∧
          ExtractsExactly ['A', '=', '1', ' ', 'B', '=', '2'] ret env := by
  have isItem : ∀ c, nameChar c = true → c.isDigit = false → ∀ d,
      d ≠ ' ' → isQuote d = false → IsItem false ([c], [d]) [c, '=', d] := by
    intro c letter noDigit d noSpace noQuote
    refine .bare ⟨?_, c, [], rfl, noDigit⟩ (List.cons_ne_nil _ _) ?_ ?_
    · simpa using letter
    · simpa using noSpace.symm
    · simpa using noQuote
  have inGrammar : Grammar 1 [(['A'], ['1']), (['B'], ['2'])]
      ['A', '=', '1', ' ', 'B', '=', '2'] :=
    ⟨0, _, rfl, @Items.cons 1 false _ _
      (isItem 'A' (by decide) (by decide) '1' (by decide) (by decide)) 1
      (Nat.le_refl 1) _ _ (.last
        (isItem 'B' (by decide) (by decide) '2' (by decide) (by decide)) 0)⟩
  refine ⟨inGrammar, by decide, ?_⟩
  rintro ⟨ret, env, returned, exactly⟩
  have refused : extractAndSetEnv (some ['A', '=', '1', ' ', 'B', '=', '2']) =
      .ok (false, []) := by decide
  rw [refused] at returned
  cases returned
  exact Bool.false_ne_true (exactly.accepts.mpr ⟨_, inGrammar⟩)

end AFLPlusPlus.ExtractEnv
