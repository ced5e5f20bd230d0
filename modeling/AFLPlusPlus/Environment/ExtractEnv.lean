import AFLPlusPlus.Support.CStrings
import AFLPlusPlus.Support.Loops
import AFLPlusPlus.Sync.ForeignImport

/-!
# Variables for the target

`extract_and_set_env` takes the variables of `AFL_TARGET_ENV` apart.  It works on
a copy of the string, where it ends names and values by NULs as it goes on.
-/

namespace AFLPlusPlus.ExtractEnv

open CMemory

def nameChar (c : Char) : Bool := c.isAlphanum || c = '_'

def isQuote (c : Char) : Bool := c = '\'' || c = '"'

/-- `while (*rest == ' ')` -/
def skipSpaces (p : List Char) : Nat → Nat → Except MemoryFault Nat
  | 0, _ => .error .endless
  | fuel + 1, rest => do
      let c ← load p rest
      if c = ' ' then skipSpaces p fuel (rest + 1) else .ok rest

/-- The loop over a name, which may end the function. -/
def scanName (stop : Nat) (p : List Char) : Nat → Nat → Except MemoryFault (Option Nat)
  | 0, _ => .error .endless
  | fuel + 1, rest =>
      if rest < stop then do
        let c ← load p rest
        if c = '=' ∨ c = ' ' then .ok (some rest)
        else if nameChar c then scanName stop p fuel (rest + 1)
        else .ok none
      else .ok (some rest)

/-- The loop over a value. -/
def scanValue (stop : Nat) (closingSym : Char) (p : List Char) :
    Nat → Nat → Except MemoryFault Nat
  | 0, _ => .error .endless
  | fuel + 1, rest =>
      if rest < stop then do
        let c ← load p rest
        if c = closingSym then .ok rest
        else scanValue stop closingSym p fuel (rest + 1)
      else .ok rest

/-- From `key` to behind the equals sign. -/
def extractName (stop : Nat) (p : List Char) (key : Nat) :
    Except MemoryFault (Option (List Char × Nat)) := do
  let first ← load p key
  if first = '=' ∨ first.isDigit then .ok none
  else
    match ← scanName stop p p.length key with
    | none => .ok none
    | some rest => do
        let c ← load p rest
        if c = '=' then do
          let p ← store p rest nul
          .ok (some (p, rest + 1))
        else .ok none

/-- From `val` to behind the value, which is returned as well. -/
def closeValue (stop : Nat) (closingSym : Char) (p : List Char) (val : Nat) :
    Except MemoryFault (Option (List Char × Nat × Nat)) := do
  let rest ← scanValue stop closingSym p p.length val
  let c ← load p rest
  if closingSym ≠ ' ' ∧ c ≠ closingSym then .ok none
  else do
    let p ← store p rest nul
    let rest := rest + 1
    if rest < stop then do
      let c ← load p rest
      if c = ' ' then .ok (some (p, val, rest)) else .ok none
    else .ok (some (p, val, rest))

/-- From the equals sign to behind the value. -/
def extractValue (stop : Nat) (p : List Char) (rest : Nat) :
    Except MemoryFault (Option (List Char × Nat × Nat)) :=
  if stop ≤ rest then .ok none
  else do
    let c ← load p rest
    if c = ' ' then .ok none
    else if isQuote c then
      if stop ≤ rest + 1 then .ok none
      else closeValue stop c p (rest + 1)
    else closeValue stop ' ' p rest

abbrev Variable := CString × CString

/-- The body of the outer loop from `key` on, with the arguments of `setenv`. -/
def extractItem (stop : Nat) (p : List Char) (key : Nat) :
    Except MemoryFault (Option (Variable × List Char × Nat)) := do
  match ← extractName stop p key with
  | none => .ok none
  | some (p, rest) =>
      match ← extractValue stop p rest with
      | none => .ok none
      | some (p, val, rest) => do
          let name ← stringAt p key
          let value ← stringAt p val
          .ok (some ((name, value), p, rest))

/-- The outer loop, with the variables set so far. -/
def extractItems (stop : Nat) :
    Nat → List Char → Nat → List Variable → Except MemoryFault (Bool × List Variable)
  | 0, _, _, _ => .error .endless
  | fuel + 1, p, rest, env =>
      if rest < stop then do
        let key ← skipSpaces p p.length rest
        if stop ≤ key + 1 then .ok (!env.isEmpty, env)
        else
          match ← extractItem stop p key with
          | none => .ok (false, env)
          | some (item, p, rest) =>
              extractItems stop fuel p rest (env ++ [item])
      else .ok (!env.isEmpty, env)

/-- `extract_and_set_env`: what it returns and the variables it has set. -/
def extractAndSetEnv : Option CString → Except MemoryFault (Bool × List Variable)
  | none => .ok (false, [])
  | some envStr =>
      extractItems envStr.length (envStr.length + 1) (envStr ++ [nul]) 0 []

/-- The name before the next equals sign, and what stands behind it. -/
def readName : CString → Option (CString × CString)
  | [] => none
  | c :: ahead =>
      if c = '=' then some ([], ahead)
      else if nameChar c then
        (readName ahead).map fun split => (c :: split.1, split.2)
      else none

/-- The value up to its closing symbol, and what stands behind it. -/
def readUpTo (closingSym : Char) (ahead : CString) : Option (CString × CString) :=
  match ahead.dropWhile (· ≠ closingSym) with
  | [] =>
      if closingSym = ' ' then some (ahead.takeWhile (· ≠ closingSym), [])
      else none
  | _ :: rest =>
      if rest = [] ∨ rest.head? = some ' ' then
        some (ahead.takeWhile (· ≠ closingSym), rest)
      else none

def readValue : CString → Option (CString × CString)
  | [] => none
  | c :: ahead =>
      if c = ' ' then none
      else if isQuote c then readUpTo c ahead
      else readUpTo ' ' (c :: ahead)

/-- The item at the start, and what stands behind it. -/
def readItem (ahead : CString) : Option (Variable × CString) :=
  if ahead.head?.any fun first => first = '=' || first.isDigit then none
  else
    (readName ahead).bind fun split =>
      (readValue split.2).map fun value => ((split.1, value.1), value.2)

variable {finished : Bool} {rest value : CString} {p : List Char} {items : List Variable}
    {stop : Nat}

theorem readName_eq_some {ahead name : CString} :
    readName ahead = some (name, rest) ↔
      ahead = name ++ '=' :: rest ∧ ∀ c ∈ name, nameChar c = true := by
  induction ahead generalizing name with
  | nil => simp [readName]
  | cons c ahead induction =>
      by_cases equals : c = '='
      · subst equals
        rw [readName, if_pos rfl]
        constructor
        · intro same
          cases same
          simp
        · rintro ⟨same, letters⟩
          cases name with
          | nil =>
              cases same
              rfl
          | cons first name =>
              have isEquals : first = '=' := (List.cons.inj same).1.symm
              have letter := letters first List.mem_cons_self
              rw [isEquals] at letter
              exact absurd letter (by decide)
      · by_cases letter : nameChar c = true
        · rw [readName, if_neg equals, if_pos letter, Option.map_eq_some_iff]
          constructor
          · rintro ⟨⟨other, behind⟩, found, same⟩
            cases same
            obtain ⟨rfl, letters⟩ := induction.mp found
            exact ⟨rfl, List.forall_mem_cons.mpr ⟨letter, letters⟩⟩
          · rintro ⟨same, letters⟩
            cases name with
            | nil => exact absurd (List.cons.inj same).1 equals
            | cons first name =>
                obtain ⟨rfl, rfl⟩ := List.cons.inj same
                exact ⟨(name, rest), induction.mpr
                  ⟨rfl, fun d member =>
                    letters d (List.mem_cons_of_mem _ member)⟩, rfl⟩
        · rw [readName, if_neg equals, if_neg letter]
          refine iff_of_false nofun ?_
          rintro ⟨same, letters⟩
          cases name with
          | nil => exact equals (List.cons.inj same).1
          | cons first name =>
              obtain ⟨rfl, -⟩ := List.cons.inj same
              exact letter (letters _ List.mem_cons_self)

section Loops

variable {before ahead : List Char}

abbrev memoryAt (before ahead : List Char) : List Char := before ++ (ahead ++ [nul])

theorem memoryAt_cons (c : Char) :
    memoryAt before (c :: ahead) = memoryAt (before ++ [c]) ahead := by
  simp [memoryAt]

theorem length_snoc (before : List Char) (c : Char) :
    (before ++ [c]).length = before.length + 1 := by
  simp

theorem load_head (c : Char) :
    load (memoryAt before (c :: ahead)) before.length = .ok c := by
  simp [memoryAt]

theorem load_end : load (memoryAt before []) before.length = .ok nul := by
  simp [memoryAt]

theorem skipSpaces_eq {fuel : Nat} (enough : ahead.length < fuel) :
    skipSpaces (memoryAt before ahead) fuel before.length =
      .ok (before ++ ahead.takeWhile (· = ' ')).length := by
  induction ahead generalizing before fuel with
  | nil =>
      obtain ⟨fuel, rfl⟩ := Nat.exists_eq_add_of_lt enough
      simp only [skipSpaces, load_end, ok_bind]
      rw [if_neg (by decide)]
      simp
  | cons c ahead induction =>
      cases fuel with
      | zero => cases enough
      | succ fuel =>
          simp only [skipSpaces, load_head, ok_bind]
          by_cases space : c = ' '
          · have rest := @induction (before ++ [c]) fuel
              (Nat.lt_of_succ_lt_succ enough)
            rw [← memoryAt_cons, length_snoc] at rest
            rw [if_pos space, rest]
            simp [space]
          · rw [if_neg space]
            simp [space]

theorem scanValue_eq {closingSym : Char} {fuel : Nat}
    (enough : ahead.length < fuel) :
    scanValue (before ++ ahead).length closingSym (memoryAt before ahead) fuel
        before.length =
      .ok (before ++ ahead.takeWhile (· ≠ closingSym)).length := by
  induction ahead generalizing before fuel with
  | nil =>
      obtain ⟨fuel, rfl⟩ := Nat.exists_eq_add_of_lt enough
      simp [scanValue]
  | cons c ahead induction =>
      cases fuel with
      | zero => cases enough
      | succ fuel =>
          have inside : before.length < (before ++ c :: ahead).length := by
            simp
          simp only [scanValue, if_pos inside, load_head, ok_bind]
          by_cases closes : c = closingSym
          · rw [if_pos closes]
            simp [closes]
          · have rest := @induction (before ++ [c]) fuel
              (Nat.lt_of_succ_lt_succ enough)
            rw [← memoryAt_cons, ← List.append_cons, length_snoc] at rest
            rw [if_neg closes, rest]
            simp [closes]

/-- The loop over a name stops at the equals sign behind it, or it does not
stop at an equals sign. -/
theorem scanName_eq {fuel : Nat} (enough : ahead.length < fuel) :
    match readName ahead with
    | some (name, _) =>
        scanName (before ++ ahead).length (memoryAt before ahead) fuel
          before.length = .ok (some (before ++ name).length)
    | none =>
        scanName (before ++ ahead).length (memoryAt before ahead) fuel
            before.length = .ok none ∨
          ∃ skipped c rest,
            scanName (before ++ ahead).length (memoryAt before ahead) fuel
              before.length = .ok (some (before ++ skipped).length) ∧
            ahead ++ [nul] = skipped ++ c :: rest ∧ c ≠ '=' := by
  induction ahead generalizing before fuel with
  | nil =>
      obtain ⟨fuel, rfl⟩ := Nat.exists_eq_add_of_lt enough
      refine .inr ⟨[], nul, [], ?_, rfl, by decide⟩
      simp [scanName]
  | cons c ahead induction =>
      cases fuel with
      | zero => cases enough
      | succ fuel =>
          have inside : before.length < (before ++ c :: ahead).length := by
            simp
          have rest := @induction (before ++ [c]) fuel
            (Nat.lt_of_succ_lt_succ enough)
          rw [← memoryAt_cons, ← List.append_cons, length_snoc] at rest
          simp only [scanName, if_pos inside, load_head, ok_bind]
          by_cases equals : c = '='
          · rw [readName, if_pos equals, if_pos (.inl equals)]
            simp
          · rw [readName, if_neg equals]
            by_cases space : c = ' '
            · have noLetter : ¬nameChar c = true := by
                rw [space]
                decide
              rw [if_neg noLetter, if_pos (.inr space)]
              refine .inr ⟨[], c, ahead ++ [nul], ?_, rfl, equals⟩
              rw [List.append_nil]
            · rw [if_neg (not_or.mpr ⟨equals, space⟩)]
              by_cases letter : nameChar c = true
              · rw [if_pos letter, if_pos letter]
                cases found : readName ahead with
                | some split =>
                    rw [found] at rest
                    rw [Option.map_some]
                    simpa using rest
                | none =>
                    rw [found] at rest
                    rw [Option.map_none]
                    rcases rest with invalid | ⟨skipped, d, behind, stops, same, other⟩
                    · exact .inl invalid
                    · refine .inr ⟨c :: skipped, d, behind, ?_, ?_, other⟩
                      · simpa using stops
                      · rw [List.cons_append, same, List.cons_append]
              · rw [if_neg letter, if_neg letter]
                exact .inl rfl

end Loops

section Items

variable {before ahead : List Char}

theorem length_lt_memoryAt (before ahead : List Char) :
    ahead.length < (memoryAt before ahead).length := by
  simp only [memoryAt, List.length_append, List.length_singleton]
  omega

/-- The first character decides, or the name does. -/
theorem extractName_eq (c : Char) :
    extractName (before ++ c :: ahead).length (memoryAt before (c :: ahead))
        before.length =
      if c = '=' ∨ c.isDigit = true then .ok none
      else
        match readName (c :: ahead) with
        | none => .ok none
        | some (name, rest) =>
            .ok (some (memoryAt (before ++ name ++ [nul]) rest,
              (before ++ name ++ [nul]).length)) := by
  have scanned := @scanName_eq before (c :: ahead) _
    (length_lt_memoryAt before (c :: ahead))
  simp only [extractName, load_head, ok_bind]
  split
  · rfl
  · cases found : readName (c :: ahead) with
    | some split =>
        obtain ⟨name, rest⟩ := split
        rw [found] at scanned
        have same := (readName_eq_some.mp found).1
        have cut : memoryAt before (c :: ahead) =
            (before ++ name) ++ '=' :: (rest ++ [nul]) := by
          simp [memoryAt, same]
        simp only [scanned, ok_bind]
        simp only [cut, load_append, store_append, ok_bind, if_true]
        simp [memoryAt, Nat.add_assoc]
    | none =>
        rw [found] at scanned
        rcases scanned with invalid | ⟨skipped, d, behind, stops, same, other⟩
        · simp only [invalid, ok_bind]
        · have cut : memoryAt before (c :: ahead) =
              (before ++ skipped) ++ d :: behind := by
            rw [memoryAt, same, List.append_assoc]
          simp only [stops, ok_bind]
          simp only [cut, load_append, ok_bind, if_neg other]

/-- The scanner at the first of the characters ahead, or behind the end. -/
def StandsAt (stop : Nat) (p : List Char) (rest : Nat) (ahead : CString) :
    Prop :=
  (∃ before, p = memoryAt before ahead ∧ rest = before.length ∧
      stop = (before ++ ahead).length) ∨
    (ahead = [] ∧ stop ≤ rest)

/-- A value that is closed stands in memory with its NUL. -/
theorem closeValue_eq {closingSym : Char} (isText : nul ∉ ahead)
    (isSym : closingSym ≠ nul) :
    match readUpTo closingSym ahead with
    | none =>
        closeValue (before ++ ahead).length closingSym
          (memoryAt before ahead) before.length = .ok none
    | some (value, rest) =>
        ∃ p next after,
          closeValue (before ++ ahead).length closingSym
            (memoryAt before ahead) before.length =
              .ok (some (p, before.length, next)) ∧
          p = before ++ (value ++ nul :: after) ∧
          p.length = (memoryAt before ahead).length ∧
          StandsAt (before ++ ahead).length p next rest := by
  have scanned := @scanValue_eq before ahead closingSym _
    (length_lt_memoryAt before ahead)
  have parts : ahead.takeWhile (· ≠ closingSym) ++
      ahead.dropWhile (· ≠ closingSym) = ahead :=
    List.takeWhile_append_dropWhile
  simp only [closeValue, scanned, ok_bind, readUpTo]
  generalize ahead.takeWhile (· ≠ closingSym) = value at parts scanned ⊢
  cases behind : ahead.dropWhile (· ≠ closingSym) with
  | nil =>
      rw [behind, List.append_nil] at parts
      subst parts
      have cut : memoryAt before value = (before ++ value) ++ nul :: [] := by
        rw [memoryAt, List.append_assoc]
      simp only [cut, load_append, store_append, ok_bind]
      by_cases blank : closingSym = ' '
      · simp only [blank, ne_eq, not_true_eq_false, false_and, if_false, if_true]
        rw [if_neg (by omega)]
        exact ⟨_, _, [], rfl, by simp, rfl, .inr ⟨rfl, by omega⟩⟩
      · simp [blank, isSym.symm]
  | cons c rest =>
      have closes : c = closingSym := by
        have head := List.head?_dropWhile_not (· ≠ closingSym) ahead
        rw [behind] at head
        simpa using head
      subst closes
      rw [behind] at parts
      subst parts
      have cut : memoryAt before (value ++ c :: rest) =
          (before ++ value) ++ c :: (rest ++ [nul]) := by
        simp [memoryAt]
      have stored : (before ++ value) ++ nul :: (rest ++ [nul]) =
          memoryAt (before ++ value ++ [nul]) rest := by
        simp [memoryAt]
      have isStop : (before ++ (value ++ c :: rest)).length =
          (before ++ value).length + 1 + rest.length := by
        simp only [List.length_append, List.length_cons]
        omega
      simp only [cut, load_append, store_append, ok_bind, ne_eq,
        not_true_eq_false, and_false, if_false, isStop]
      have stands : StandsAt ((before ++ value).length + 1 + rest.length)
          ((before ++ value) ++ nul :: (rest ++ [nul]))
          ((before ++ value).length + 1) rest := by
        refine .inl ⟨_, stored, (length_snoc _ _).symm, ?_⟩
        simp only [List.length_append, List.length_singleton]
      cases rest with
      | nil =>
          simp only [true_or, if_true, List.length_nil, Nat.add_zero]
          rw [if_neg (Nat.lt_irrefl _)]
          exact ⟨_, _, _, rfl, List.append_assoc _ _ _, by simp, stands⟩
      | cons d rest =>
          have next : load ((before ++ value) ++ nul :: (d :: rest ++ [nul]))
              ((before ++ value).length + 1) = .ok d := by
            rw [stored, ← length_snoc, load_head]
          have more : (before ++ value).length + 1 <
              (before ++ value).length + 1 + (d :: rest).length := by
            simp
          rw [if_pos more]
          simp only [next, ok_bind]
          by_cases blank : d = ' '
          · simp only [blank, if_true, List.head?_cons, or_true]
            rw [blank] at stands
            exact ⟨_, _, _, rfl, List.append_assoc _ _ _, by simp, stands⟩
          · simp [blank]

theorem extractValue_eq (isText : nul ∉ ahead) :
    match readValue ahead with
    | none =>
        extractValue (before ++ ahead).length (memoryAt before ahead)
          before.length = .ok none
    | some (value, rest) =>
        ∃ p start next after,
          extractValue (before ++ ahead).length (memoryAt before ahead)
            before.length = .ok (some (p, start.length, next)) ∧
          before <+: start ∧
          p = start ++ (value ++ nul :: after) ∧
          p.length = (memoryAt before ahead).length ∧
          StandsAt (before ++ ahead).length p next rest := by
  cases ahead with
  | nil => simp [readValue, extractValue]
  | cons c ahead =>
      have isChar : c ≠ nul := by
        rintro rfl
        exact isText List.mem_cons_self
      have inside : ¬(before ++ c :: ahead).length ≤ before.length := by
        simp
      simp only [extractValue, if_neg inside, load_head, ok_bind, readValue]
      by_cases blank : c = ' '
      · simp [blank]
      · rw [if_neg blank, if_neg blank]
        by_cases quote : isQuote c = true
        · rw [if_pos quote, if_pos quote]
          have noBlank : c ≠ ' ' := blank
          have closed := @closeValue_eq (before ++ [c]) ahead c
            (fun member => isText (List.mem_cons_of_mem _ member)) isChar
          rw [← memoryAt_cons, ← List.append_cons, length_snoc] at closed
          by_cases ended : (before ++ c :: ahead).length ≤ before.length + 1
          · have empty : ahead = [] := by
              cases ahead with
              | nil => rfl
              | cons d ahead => simp at ended
            rw [if_pos ended, empty]
            simp [readUpTo, noBlank]
          · rw [if_neg ended]
            cases found : readUpTo c ahead with
            | none =>
                rw [found] at closed
                exact closed
            | some split =>
                rw [found] at closed
                obtain ⟨p, next, after, returned, text, length, stands⟩ := closed
                refine ⟨p, before ++ [c], next, after, ?_,
                  List.prefix_append _ _, text, length, stands⟩
                rw [length_snoc]
                exact returned
        · rw [if_neg quote, if_neg quote]
          have closed := @closeValue_eq before (c :: ahead) ' ' isText
            (by decide)
          cases found : readUpTo ' ' (c :: ahead) with
          | none =>
              rw [found] at closed
              exact closed
          | some split =>
              rw [found] at closed
              obtain ⟨p, next, after, returned, text, length, stands⟩ := closed
              exact ⟨p, before, next, after, returned, List.prefix_rfl, text,
                length, stands⟩

theorem readUpTo_sublist {closingSym : Char} {ahead : CString}
    (found : readUpTo closingSym ahead = some (value, rest)) :
    value.Sublist ahead ∧ rest.Sublist ahead := by
  unfold readUpTo at found
  split at found
  · split at found
    · cases found
      exact ⟨List.takeWhile_sublist _, List.nil_sublist _⟩
    · cases found
  · rename_i c behind isBehind
    split at found
    · cases found
      refine ⟨List.takeWhile_sublist _, ?_⟩
      have tail : rest.Sublist (ahead.dropWhile (· ≠ closingSym)) := by
        rw [isBehind]
        exact List.sublist_cons_self _ _
      exact tail.trans (List.dropWhile_sublist _)
    · cases found

theorem readValue_sublist {ahead : CString}
    (found : readValue ahead = some (value, rest)) :
    value.Sublist ahead ∧ rest.Sublist ahead := by
  cases ahead with
  | nil => cases found
  | cons c ahead =>
      rw [readValue] at found
      split_ifs at found
      · obtain ⟨left, right⟩ := readUpTo_sublist found
        exact ⟨left.cons _, right.cons _⟩
      · exact readUpTo_sublist found

theorem readItem_shorter {item : Variable} (found : readItem ahead = some (item, rest)) :
    rest.Sublist ahead ∧ rest.length < ahead.length := by
  unfold readItem at found
  split at found
  · cases found
  · obtain ⟨⟨name, behind⟩, isName, valued⟩ := Option.bind_eq_some_iff.mp found
    obtain ⟨⟨value, other⟩, isValue, same⟩ := Option.map_eq_some_iff.mp valued
    obtain ⟨-, rfl⟩ := Prod.mk.inj same
    obtain ⟨rfl, -⟩ := readName_eq_some.mp isName
    have right := (readValue_sublist isValue).2
    have shorter := right.length_le
    refine ⟨?_, ?_⟩
    · exact (right.cons _).trans (List.sublist_append_right _ _)
    · simp only [List.length_append, List.length_cons] at shorter ⊢
      omega

/-- One item is taken out of the memory, or none is. -/
theorem extractItem_eq (c : Char) (isText : nul ∉ c :: ahead) :
    match readItem (c :: ahead) with
    | none =>
        extractItem (before ++ c :: ahead).length
          (memoryAt before (c :: ahead)) before.length = .ok none
    | some (item, rest) =>
        ∃ p next,
          extractItem (before ++ c :: ahead).length
            (memoryAt before (c :: ahead)) before.length = .ok (some (item, p, next)) ∧
          p.length = (memoryAt before (c :: ahead)).length ∧
          StandsAt (before ++ c :: ahead).length p next rest := by
  have named := @extractName_eq before ahead c
  simp only [extractItem, named, readItem, List.head?_cons, Option.any_some,
    Bool.or_eq_true, decide_eq_true_eq]
  by_cases refused : c = '=' ∨ c.isDigit = true
  · simp only [if_pos refused, ok_bind]
  · simp only [if_neg refused]
    cases found : readName (c :: ahead) with
    | none => rfl
    | some split =>
        obtain ⟨name, behind⟩ := split
        have isAhead := (readName_eq_some.mp found).1
        rw [isAhead] at isText ⊢
        have nameText : nul ∉ name :=
          fun member => isText (List.mem_append_left _ member)
        have behindText : nul ∉ behind := fun member =>
          isText (List.mem_append_right _ (List.mem_cons_of_mem _ member))
        have isStop : (before ++ (name ++ '=' :: behind)).length =
            (before ++ name ++ [nul] ++ behind).length := by
          simp
        have valued := @extractValue_eq (before ++ name ++ [nul]) behind
          behindText
        rw [isStop]
        simp only [ok_bind, Option.bind_some]
        cases isValue : readValue behind with
        | none =>
            rw [isValue] at valued
            simp only [valued, ok_bind, Option.map_none]
        | some split =>
            obtain ⟨value, rest⟩ := split
            rw [isValue] at valued
            obtain ⟨p, start, next, after, returned, ⟨skipped, isStart⟩, text,
              length, stands⟩ := valued
            have valueText : nul ∉ value := fun member =>
              behindText ((readValue_sublist isValue).1.mem member)
            have readKey : stringAt p before.length = .ok name := by
              have keyText : p = before ++ (name ++ nul ::
                  (skipped ++ (value ++ nul :: after))) := by
                rw [text, ← isStart]
                simp
              rw [keyText]
              exact stringAt_append _ _ nameText
            have readVal : stringAt p start.length = .ok value := by
              rw [text]
              exact stringAt_append _ _ valueText
            simp only [returned, ok_bind, readKey, readVal, Option.map_some]
            refine ⟨p, next, rfl, ?_, stands⟩
            rw [length]
            simp [memoryAt]

end Items

def afterSpaces (ahead : CString) : CString := ahead.dropWhile (· = ' ')

/-- The items that are taken, and whether the scanner gets to the end.  A single
character that is left over counts as the end. -/
inductive Scan : CString → List Variable → Bool → Prop where
  | stops {ahead : CString} (short : (afterSpaces ahead).length ≤ 1) :
      Scan ahead [] true
  | fails {ahead : CString} (long : 1 < (afterSpaces ahead).length)
      (refused : readItem (afterSpaces ahead) = none) :
      Scan ahead [] false
  | takes {ahead rest : CString} {item : Variable} {items : List Variable}
      {finished : Bool} (long : 1 < (afterSpaces ahead).length)
      (found : readItem (afterSpaces ahead) = some (item, rest))
      (others : Scan rest items finished) :
      Scan ahead (item :: items) finished

theorem afterSpaces_sublist (ahead : CString) : (afterSpaces ahead).Sublist ahead :=
  List.dropWhile_sublist _

theorem Scan.total (ahead : CString) :
    ∃ items finished, Scan ahead items finished := by
  induction size : ahead.length using Nat.strong_induction_on generalizing ahead with
  | _ size' induction =>
      by_cases short : (afterSpaces ahead).length ≤ 1
      · exact ⟨[], true, .stops short⟩
      · have long := Nat.lt_of_not_le short
        cases found : readItem (afterSpaces ahead) with
        | none => exact ⟨[], false, .fails long found⟩
        | some taken =>
            obtain ⟨item, rest⟩ := taken
            have shorter := (readItem_shorter found).2
            have bounded := (afterSpaces_sublist ahead).length_le
            obtain ⟨items, finished, others⟩ :=
              induction rest.length (by omega) rest rfl
            exact ⟨item :: items, finished, .takes long found others⟩

/-- The outer loop where the scanner stands before the end. -/
theorem extractItems_succ (before ahead : List Char) (fuel : Nat)
    (env : List Variable) :
    extractItems (before ++ ahead).length (fuel + 1) (memoryAt before ahead)
        before.length env =
      if (afterSpaces ahead).length ≤ 1 then .ok (!env.isEmpty, env)
      else
        (extractItem (before ++ ahead).length (memoryAt before ahead)
            (before ++ ahead.takeWhile (· = ' ')).length >>= fun
          | none => .ok (false, env)
          | some (item, p, rest) =>
              extractItems (before ++ ahead).length fuel p rest
                (env ++ [item])) := by
  have skipped := @skipSpaces_eq before ahead _
    (length_lt_memoryAt before ahead)
  have parts : ahead.takeWhile (· = ' ') ++ afterSpaces ahead = ahead :=
    List.takeWhile_append_dropWhile
  have sizes := congrArg List.length parts
  rw [List.length_append] at sizes
  by_cases empty : before.length < (before ++ ahead).length
  · simp only [extractItems, if_pos empty, skipped, ok_bind]
    have near : (before ++ ahead).length ≤
          (before ++ ahead.takeWhile (· = ' ')).length + 1 ↔
        (afterSpaces ahead).length ≤ 1 := by
      simp only [List.length_append]
      omega
    simp only [near]
  · have none : ahead = [] := by simpa using empty
    subst none
    simp [extractItems, afterSpaces]

theorem StandsAt.before {rest : Nat} {ahead : CString}
    (stands : StandsAt stop p rest ahead) (long : 1 < (afterSpaces ahead).length) :
    ∃ before, p = memoryAt before ahead ∧ rest = before.length ∧
      stop = (before ++ ahead).length := by
  rcases stands with inside | ⟨rfl, -⟩
  · exact inside
  · cases long

theorem extractItem_afterSpaces {before ahead : List Char}
    (long : 1 < (afterSpaces ahead).length) (isText : nul ∉ ahead) :
    match readItem (afterSpaces ahead) with
    | none =>
        extractItem (before ++ ahead).length (memoryAt before ahead)
          (before ++ ahead.takeWhile (· = ' ')).length = .ok none
    | some (item, rest) =>
        ∃ p next,
          extractItem (before ++ ahead).length (memoryAt before ahead)
            (before ++ ahead.takeWhile (· = ' ')).length = .ok (some (item, p, next)) ∧
          StandsAt (before ++ ahead).length p next rest := by
  have parts : ahead.takeWhile (· = ' ') ++ afterSpaces ahead = ahead :=
    List.takeWhile_append_dropWhile
  have itemText : nul ∉ afterSpaces ahead := fun member =>
    isText ((afterSpaces_sublist ahead).mem member)
  have memory : memoryAt before ahead =
      memoryAt (before ++ ahead.takeWhile (· = ' ')) (afterSpaces ahead) := by
    calc memoryAt before ahead
        = before ++ ((ahead.takeWhile (· = ' ') ++ afterSpaces ahead) ++
            [nul]) := by rw [parts]
      _ = memoryAt (before ++ ahead.takeWhile (· = ' '))
            (afterSpaces ahead) := by simp only [memoryAt, List.append_assoc]
  have stop : (before ++ ahead).length =
      (before ++ ahead.takeWhile (· = ' ') ++ afterSpaces ahead).length := by
    rw [List.append_assoc, parts]
  rw [memory, stop]
  generalize before ++ ahead.takeWhile (· = ' ') = skipped at *
  cases start : afterSpaces ahead with
  | nil =>
      rw [start] at long
      cases long
  | cons c behind =>
      rw [start] at itemText
      have taken := @extractItem_eq skipped behind c itemText
      cases found : readItem (c :: behind) with
      | none =>
          rw [found] at taken
          exact taken
      | some split =>
          rw [found] at taken
          obtain ⟨p, next, returned, -, stands⟩ := taken
          exact ⟨p, next, returned, stands⟩

theorem extractItems_eq {ahead : CString} (scan : Scan ahead items finished)
    {rest fuel : Nat} (stands : StandsAt stop p rest ahead) (isText : nul ∉ ahead)
    (enough : ahead.length < fuel) (env : List Variable) :
    extractItems stop fuel p rest env =
      .ok (finished && !(env ++ items).isEmpty, env ++ items) := by
  induction scan generalizing stop rest fuel p env with
  | stops short =>
      obtain ⟨fuel, rfl⟩ := Nat.exists_eq_succ_of_ne_zero
        (Nat.ne_zero_of_lt enough)
      rw [List.append_nil, Bool.true_and]
      rcases stands with ⟨before, rfl, rfl, rfl⟩ | ⟨-, beyond⟩
      · rw [extractItems_succ, if_pos short]
      · rw [extractItems, if_neg (Nat.not_lt.mpr beyond)]
  | @fails ahead long refused =>
      obtain ⟨before, rfl, rfl, rfl⟩ := stands.before long
      obtain ⟨fuel, rfl⟩ := Nat.exists_eq_succ_of_ne_zero
        (Nat.ne_zero_of_lt enough)
      have taken := @extractItem_afterSpaces before ahead long isText
      rw [refused] at taken
      rw [extractItems_succ, if_neg (Nat.not_le.mpr long), taken, ok_bind,
        List.append_nil, Bool.false_and]
  | @takes ahead rest item items finished long found others induction =>
      obtain ⟨before, rfl, rfl, rfl⟩ := stands.before long
      obtain ⟨fuel, rfl⟩ := Nat.exists_eq_succ_of_ne_zero
        (Nat.ne_zero_of_lt enough)
      have taken := @extractItem_afterSpaces before ahead long isText
      rw [found] at taken
      obtain ⟨p, next, returned, after⟩ := taken
      obtain ⟨kept, shorter⟩ := readItem_shorter found
      have bounded := (afterSpaces_sublist ahead).length_le
      have restText : nul ∉ rest := fun member =>
        isText ((afterSpaces_sublist ahead).mem (kept.mem member))
      rw [extractItems_succ, if_neg (Nat.not_le.mpr long), returned, ok_bind]
      rw [List.append_cons env item items]
      exact induction after restText (by omega) (env ++ [item])

/-- No access is outside of the copy, the loops end, and the variables that are
set are those of the items that were taken. -/
theorem extractAndSetEnv_eq {envStr : CString} (isText : nul ∉ envStr)
    (scan : Scan envStr items finished) :
    extractAndSetEnv (some envStr) = .ok (finished && !items.isEmpty, items) := by
  have stands : StandsAt envStr.length (envStr ++ [nul]) 0 envStr :=
    .inl ⟨[], rfl, rfl, rfl⟩
  exact extractItems_eq scan stands isText (Nat.lt_succ_self _) []

end AFLPlusPlus.ExtractEnv
