import AFLPlusPlus.Environment.SuggestedEnvs
import Mathlib.Data.List.TakeWhile

/-!
# Safety of the suggestions

The buffers of `print_suggested_envs` are as long as the name, and every index
into them is found from where a part starts and ends.  For the name itself there
is no check that a part ends before the name does.
-/

namespace AFLPlusPlus.SuggestedEnvs

open CMemory

def partStop (text : CString) (start : Nat) : Nat :=
  start + ((text.drop start).takeWhile (· ≠ '_')).length + 1

def AtBoundary (text : CString) (start : Nat) : Prop :=
  start = 0 ∨ text[start - 1]? = some '_'

/-- The name without the characters between two positions.  If the end is behind
the name, an underscore in front of the first position goes as well. -/
def reducedText (text : CString) (start stop : Nat) : CString :=
  (text.take start ++ text.drop stop).take (text.length + start - stop)

/-- A name without one of its parts. -/
def WithoutPart (text reduced : CString) : Prop :=
  ∃ start < text.length, AtBoundary text start ∧
    reduced = reducedText text start (partStop text start)

/-- Names that are near enough to be suggested. -/
def Near (s1 s2 : CString) : Prop :=
  ∃ distance, stringDistanceLevenshtein s1 s2 = .ok distance ∧
    distance < envSimilarityTreshold

section Parts

variable {text : CString} {start : Nat}

theorem lt_partStop (text : CString) (start : Nat) : start < partStop text start := by
  unfold partStop
  omega

theorem partStop_le (inside : start ≤ text.length) :
    partStop text start ≤ text.length + 1 := by
  have part : ((text.drop start).takeWhile (· ≠ '_')).Sublist
      (text.drop start) := List.takeWhile_sublist _
  have bounded := part.length_le
  rw [List.length_drop] at bounded
  unfold partStop
  omega

theorem drop_eq_part (text : CString) (start : Nat) :
    text.drop start = (text.drop start).takeWhile (· ≠ '_') ++
      (text.drop start).dropWhile (· ≠ '_') :=
  List.takeWhile_append_dropWhile.symm

theorem no_underscore {i : Nat} (above : start ≤ i)
    (before : i + 1 < partStop text start) : text[i]? ≠ some '_' := by
  intro underscore
  have inPart : i - start < ((text.drop start).takeWhile (· ≠ '_')).length := by
    unfold partStop at before
    omega
  have same : ((text.drop start).takeWhile (· ≠ '_'))[i - start]? = some '_' := by
    rw [← List.getElem?_append_left inPart, ← drop_eq_part,
      List.getElem?_drop, Nat.add_sub_cancel' above]
    exact underscore
  have differs := List.mem_takeWhile_imp (List.mem_of_getElem? same)
  simp at differs

theorem atBoundary_partStop (inside : partStop text start ≤ text.length) :
    AtBoundary text (partStop text start) := by
  right
  have split := drop_eq_part text start
  cases behind : (text.drop start).dropWhile (· ≠ '_') with
  | nil =>
      rw [behind, List.append_nil] at split
      have length := congrArg List.length split
      rw [List.length_drop] at length
      unfold partStop at inside
      omega
  | cons c rest =>
      have isUnderscore : c = '_' := by
        have head := List.head?_dropWhile_not (· ≠ '_') (text.drop start)
        rw [behind] at head
        simpa using head
      obtain ⟨part, isPart⟩ :
          ∃ part, (text.drop start).takeWhile (· ≠ '_') = part := ⟨_, rfl⟩
      rw [behind, isPart, isUnderscore] at split
      have found : (text.drop start)[part.length]? = some '_' := by
        rw [split]
        simp
      rw [List.getElem?_drop] at found
      unfold partStop
      rw [isPart, Nat.add_sub_cancel]
      exact found

theorem boundary_from {i : Nat} (above : start ≤ i)
    (boundary : AtBoundary text i) : i = start ∨ partStop text start ≤ i := by
  rcases Nat.eq_or_lt_of_le above with same | after
  · exact .inl same.symm
  · rcases boundary with zero | underscore
    · omega
    · right
      by_contra before
      exact @no_underscore text start (i - 1) (by omega) (by omega) underscore

theorem partStop_zero_le_iff : partStop text 0 ≤ text.length ↔ '_' ∈ text := by
  constructor
  · intro inside
    rcases atBoundary_partStop inside with zero | underscore
    · have positive := lt_partStop text 0
      omega
    · exact List.mem_of_getElem? underscore
  · intro member
    by_contra beyond
    obtain ⟨i, inside, same⟩ := List.getElem_of_mem member
    have underscore : text[i]? = some '_' := by
      rw [List.getElem?_eq_getElem inside, same]
    exact no_underscore (Nat.zero_le i) (by omega) underscore

end Parts

variable {mispelledEnv name : CString} {computation : Except MemoryFault Suggesting}
    {reduced : List Char} {stop : Nat}

section Buffers

variable {text : CString} (isText : nul ∉ text)
include isText

theorem stringAt_drop {start : Nat} (inside : start ≤ text.length) :
    stringAt (text ++ [nul]) start = .ok (text.drop start) := by
  have dropped : nul ∉ text.drop start :=
    fun member => isText (List.mem_of_mem_drop member)
  have memory : text ++ [nul] = text.take start ++ (text.drop start ++ nul :: []) := by
    rw [← List.append_assoc, List.take_append_drop]
  have length : (text.take start).length = start := by
    rw [List.length_take]
    omega
  have read := stringAt_append (text.take start) [] dropped
  rw [length] at read
  rw [memory, read]

theorem partEnd_eq {start : Nat} (inside : start ≤ text.length) :
    partEnd (text ++ [nul]) start = .ok (partStop text start) := by
  rw [partEnd, stringAt_drop isText inside]
  rfl

omit isText in
/-- What is copied stands at the start of the buffer. -/
theorem copyReduced_eq {start : Nat} (size : reduced.length = text.length + 1)
    (ordered : start < stop) (inside : start ≤ text.length) :
    ∃ out, copyReduced reduced (text ++ [nul]) text.length start stop = .ok out ∧
      out.length = text.length + 1 ∧
      text.take start ++ text.drop stop <+: out ∧
      (start = 0 → text.length ≤ stop → out = reduced) := by
  have source : (text ++ [nul]).length = text.length + 1 := by simp
  have head : ((text ++ [nul]).drop 0).take start = text.take start := by
    rw [List.drop_zero, List.take_append_of_le_length inside]
  have headLength : (text.take start).length = start := by
    rw [List.length_take]
    omega
  have first : memcpy reduced 0 (text ++ [nul]) 0 start =
      .ok (text.take start ++ reduced.drop start) := by
    rw [memcpy_inside (by omega) (by omega), head, Region.splice,
      List.take_zero, List.nil_append, Nat.zero_add, headLength]
  rw [copyReduced, first, ok_bind]
  by_cases more : stop < text.length
  · have tail : ((text ++ [nul]).drop stop).take (text.length - stop) =
        text.drop stop := by
      rw [List.drop_append_of_le_length (by omega),
        List.take_append_of_le_length (by rw [List.length_drop]),
        List.take_of_length_le (by rw [List.length_drop])]
    have length : (text.take start ++ reduced.drop start).length =
        text.length + 1 := by
      rw [List.length_append, headLength, List.length_drop]
      omega
    have startHead : (text.take start ++ reduced.drop start).take start =
        text.take start := by
      rw [List.take_append_of_le_length (by omega), List.take_of_length_le (by omega)]
    rw [if_pos more, memcpy_inside (by omega) (by omega), tail]
    refine ⟨_, rfl, ?_, ?_, fun _ beyond => ?_⟩
    · rw [Region.length_splice (by rw [List.length_drop]; omega), length]
    · rw [Region.splice, startHead]
      exact List.prefix_append _ _
    · omega
  · rw [if_neg more]
    refine ⟨_, rfl, ?_, ?_, ?_⟩
    · rw [List.length_append, headLength, List.length_drop]
      omega
    · rw [List.drop_of_length_le (by omega), List.append_nil]
      exact List.prefix_append _ _
    · rintro rfl -
      rfl

/-- The NUL goes behind what is copied. -/
theorem store_reducedEnd {start : Nat} {out : List Char}
    (size : out.length = text.length + 1) (short : text.length < 2 ^ 30)
    (inside : start ≤ text.length) (ordered : start < stop)
    (bounded : stop ≤ text.length + start) (within : stop ≤ text.length + 1)
    (copied : text.take start ++ text.drop stop <+: out) :
    ∃ next, store out (reducedEnd text.length start stop) nul = .ok next ∧
      next.length = text.length + 1 ∧
      stringAt next 0 = .ok (reducedText text start stop) := by
  have index : reducedEnd text.length start stop = text.length + start - stop := by
    unfold reducedEnd
    omega
  obtain ⟨rest, parts⟩ := copied
  have length : (text.take start ++ text.drop stop).length =
      start + (text.length - stop) := by
    rw [List.length_append, List.length_take, List.length_drop]
    omega
  have isReduced : out.take (text.length + start - stop) =
      reducedText text start stop := by
    rw [← parts, List.take_append_of_le_length (by omega)]
    rfl
  have reducedLength : (reducedText text start stop).length =
      text.length + start - stop := by
    rw [← isReduced, List.length_take]
    omega
  cases behind : out.drop (text.length + start - stop) with
  | nil =>
      have empty := congrArg List.length behind
      rw [List.length_drop, List.length_nil] at empty
      omega
  | cons c tail =>
      have split : out = reducedText text start stop ++ c :: tail := by
        rw [← isReduced, ← behind, List.take_append_drop]
      have reducedIsText : nul ∉ reducedText text start stop := by
        intro member
        rcases List.mem_append.mp (List.mem_of_mem_take member) with
          inHead | inTail
        · exact isText (List.mem_of_mem_take inHead)
        · exact isText (List.mem_of_mem_drop inTail)
      have stored := store_append (reducedText text start stop) tail c nul
      rw [reducedLength, ← split] at stored
      rw [index, stored]
      refine ⟨_, rfl, ?_, stringAt_start _ reducedIsText⟩
      rw [split] at size
      simpa using size

end Buffers

theorem ckAlloc_small {α : Type} (zero : α) {size : Nat}
    (small : size ≤ maxAlloc) :
    ckAlloc zero size = .ok (List.replicate size zero) := by
  have limit : maxAlloc = 2 ^ 30 := rfl
  have same : size % 2 ^ 32 = size := Nat.mod_eq_of_lt (by omega)
  rw [ckAlloc, same, if_neg (Nat.not_lt.mpr small)]

/-- There is a flag for each of `n` names, and a name that was printed counts. -/
structure Suggesting.Sound (n : Nat) (suggesting : Suggesting) : Prop where
  size : n ≤ suggesting.seen.length
  told : ∀ k : Nat, suggesting.seen[k]? = some true → suggesting.found = true

/-- What a part of the function does to the variables: it goes through, and finds
what is there to be found. -/
def Finds (n : Nat) (suggesting : Suggesting) (there : Prop) :
    Except MemoryFault Suggesting → Prop :=
  Yields (fun _ => False) fun next => next.Sound n ∧
    (next.found = true ↔ suggesting.found = true ∨ there)

variable {j : Nat} {suggesting : Suggesting}

theorem suggest_finds {n : Nat} (sound : suggesting.Sound n) (inside : j < n)
    (name : CString) (distance : Int) :
    Finds n suggesting (distance < envSimilarityTreshold)
      (suggest j name distance suggesting) := by
  have size := sound.size
  unfold suggest
  by_cases near : distance < envSimilarityTreshold
  · rw [if_pos near, load_inside (by omega), ok_bind]
    by_cases seen : suggesting.seen[j] = true
    · have found := sound.told j (by
        rw [List.getElem?_eq_getElem (by omega), seen])
      rw [if_pos seen]
      exact ⟨sound, by simp [found]⟩
    · rw [if_neg seen, store_inside (by omega), ok_bind]
      refine ⟨⟨by simpa using size, fun _ _ => rfl⟩, by simp [near]⟩
  · rw [if_neg near]
    exact ⟨sound, by simp [near]⟩

theorem Finds.bind {n : Nat} {first rest : Prop}
    {next : Suggesting → Except MemoryFault Suggesting}
    (finds : Finds n suggesting first computation)
    (others : ∀ later : Suggesting, later.Sound n → Finds n later rest (next later)) :
    Finds n suggesting (first ∨ rest) (computation >>= next) := by
  apply Yields.bind finds
  rintro later ⟨sound, found⟩
  refine (others later sound).mono ?_
  rintro last ⟨sound, foundLast⟩
  refine ⟨sound, ?_⟩
  rw [foundLast, found, or_assoc]

theorem Finds.congr {n : Nat} {there other : Prop}
    (finds : Finds n suggesting there computation) (same : there ↔ other) :
    Finds n suggesting other computation := by
  rw [← same]
  exact finds

theorem forNames_finds {n : Nat} {there : CString → Prop}
    {body : Nat → CString → Suggesting → Except MemoryFault Suggesting} :
    ∀ (names : List CString) (j : Nat),
      (∀ name ∈ names, ∀ j < n, ∀ suggesting : Suggesting,
        suggesting.Sound n →
          Finds n suggesting (there name) (body j name suggesting)) →
      j + names.length ≤ n →
      ∀ suggesting : Suggesting, suggesting.Sound n →
        Finds n suggesting (∃ name ∈ names, there name)
          (forNames body j names suggesting)
  | [], j, each, fits, suggesting, sound => by
      exact ⟨sound, by simp⟩
  | name :: names, j, each, fits, suggesting, sound => by
      rw [List.length_cons] at fits
      have first := each name List.mem_cons_self j (by omega) suggesting sound
      have rest := @forNames_finds n there body names (j + 1)
        (fun other member => each other (List.mem_cons_of_mem _ member))
        (by omega)
      refine (first.bind rest).congr ?_
      simp

theorem stringDistance_near {s1 s2 : CString} (short1 : s1.length < 2 ^ 30)
    (short2 : s2.length < 2 ^ 30) :
    ∃ distance, stringDistanceLevenshtein s1 s2 = .ok distance ∧
      (distance < envSimilarityTreshold ↔ Near s1 s2) := by
  obtain ⟨distance, returned, -⟩ :=
    (stringDistanceLevenshtein_yields short1 short2).returns
  refine ⟨distance, returned, fun near => ⟨distance, returned, near⟩, ?_⟩
  rintro ⟨other, same, near⟩
  obtain rfl := Except.ok.inj (returned.symm.trans same)
  exact near

/-- The names that the functions can handle. -/
structure IsKnown (name : CString) : Prop where
  afl : 4 ≤ name.length
  short : name.length < 2 ^ 30
  isText : nul ∉ name

section Phases

variable {n : Nat} {given : CString} {names : List CString}
  (givenText : nul ∉ given) (givenShort : given.length < 2 ^ 30)
include givenText givenShort

omit givenShort in
theorem stringAt_given : stringAt (given ++ [nul]) 0 = .ok given :=
  stringAt_start [] givenText

theorem suggestNear_finds (known : IsKnown name) (inside : j < n)
    (sound : suggesting.Sound n) :
    Finds n suggesting (Near (name.drop 4) given)
      (suggestNear (given ++ [nul]) j name suggesting) := by
  have short := known.short
  obtain ⟨distance, returned, near⟩ := @stringDistance_near (name.drop 4) given
    (by rw [List.length_drop]; omega) givenShort
  rw [suggestNear, aflEnv, if_pos known.afl, ok_bind,
    stringAt_given givenText, ok_bind, returned, ok_bind]
  exact (suggest_finds sound inside name distance).congr near

/-- The inner loop of the second one, from some boundary on. -/
theorem suggestReduced_finds {text : CString} (isText : nul ∉ text)
    (short : text.length < 2 ^ 30) (name : CString) (inside : j < n) (fuel : Nat) :
    ∀ (start : Nat) (reduced : List Char) (suggesting : Suggesting),
      text.length < fuel + min start text.length →
      (start < text.length → AtBoundary text start) →
      reduced.length = text.length + 1 →
      (start = 0 → reduced = List.replicate (text.length + 1) nul) →
      suggesting.Sound n →
      Finds n suggesting
        (∃ i, start ≤ i ∧ i < text.length ∧ AtBoundary text i ∧
          Near (reducedText text i (partStop text i)) given)
        (suggestReduced (given ++ [nul]) (text ++ [nul]) text.length j name
          fuel start reduced suggesting) := by
  induction fuel with
  | zero =>
      intro start reduced suggesting enough
      omega
  | succ fuel induction =>
      intro start reduced suggesting enough boundary size fresh sound
      rw [suggestReduced]
      by_cases more : start < text.length
      · rw [if_pos more, partEnd_eq isText (Nat.le_of_lt more), ok_bind]
        have ordered := lt_partStop text start
        have within := partStop_le (Nat.le_of_lt more)
        obtain ⟨out, copied, outSize, isPrefix, untouched⟩ :=
          copyReduced_eq size ordered (Nat.le_of_lt more)
        rw [copied, ok_bind]
        have ended : ∃ next,
            endReduced out text.length start (partStop text start) = .ok next ∧
            next.length = text.length + 1 ∧
            stringAt next 0 = .ok (reducedText text start (partStop text start)) := by
          unfold endReduced
          by_cases bounded : partStop text start ≤ text.length + start
          · rw [if_pos bounded]
            exact store_reducedEnd isText outSize short (Nat.le_of_lt more)
              ordered bounded within isPrefix
          · have isStart : start = 0 := by omega
            rw [if_neg bounded, untouched isStart (by omega), fresh isStart]
            refine ⟨_, rfl, by simp, ?_⟩
            have empty : reducedText text start (partStop text start) = [] := by
              unfold reducedText
              rw [show text.length + start - partStop text start = 0 by omega,
                List.take_zero]
            rw [empty, List.replicate_succ]
            exact stringAt_start _ List.not_mem_nil
        obtain ⟨next, returned, nextSize, isReduced⟩ := ended
        have reducedShort :
            (reducedText text start (partStop text start)).length < 2 ^ 30 := by
          unfold reducedText
          rw [List.length_take]
          omega
        obtain ⟨distance, found, near⟩ := stringDistance_near reducedShort givenShort
        rw [returned, ok_bind, isReduced, ok_bind, stringAt_given givenText,
          ok_bind, found, ok_bind]
        have here := (suggest_finds sound inside name distance).congr near
        have rest := fun (later : Suggesting) (soundLater : later.Sound n) =>
          induction (partStop text start) next later (by omega)
            (fun inside => atBoundary_partStop (Nat.le_of_lt inside)) nextSize
            (fun zero => by omega) soundLater
        refine (here.bind rest).congr ?_
        constructor
        · rintro (isNear | ⟨i, above, below, isBoundary, isNear⟩)
          · exact ⟨start, Nat.le_refl _, more, boundary more, isNear⟩
          · exact ⟨i, by omega, below, isBoundary, isNear⟩
        · rintro ⟨i, above, below, isBoundary, isNear⟩
          rcases boundary_from above isBoundary with rfl | beyond
          · exact .inl isNear
          · exact .inr ⟨i, beyond, below, isBoundary, isNear⟩
      · rw [if_neg more]
        refine ⟨sound, ?_⟩
        have none : ¬∃ i, start ≤ i ∧ i < text.length ∧ AtBoundary text i ∧
            Near (reducedText text i (partStop text i)) given := by
          rintro ⟨i, above, below, -⟩
          omega
        rw [or_iff_left none]

theorem suggestWithoutPart_finds (known : IsKnown name) (inside : j < n)
    (sound : suggesting.Sound n) :
    Finds n suggesting
      (∃ reduced, WithoutPart (name.drop 4) reduced ∧ Near reduced given)
      (suggestWithoutPart (given ++ [nul]) j name suggesting) := by
  have short : (name.drop 4).length < 2 ^ 30 - 4 := by
    have nameShort := known.short
    have afl := known.afl
    rw [List.length_drop]
    omega
  have isText : nul ∉ name.drop 4 :=
    fun member => known.isText (List.mem_of_mem_drop member)
  have allocated : ckAlloc nul ((name.drop 4).length + 1) =
      .ok (List.replicate ((name.drop 4).length + 1) nul) := by
    have limit : maxAlloc = 2 ^ 30 := rfl
    exact ckAlloc_small nul (by omega)
  rw [suggestWithoutPart, aflEnv, if_pos known.afl, ok_bind, allocated, ok_bind]
  refine (suggestReduced_finds givenText givenShort isText (by omega) name
    inside _ 0 _ suggesting (by omega) (fun _ => .inl rfl) (by simp)
    (fun _ => rfl) sound).congr ?_
  constructor
  · rintro ⟨i, -, below, isBoundary, near⟩
    exact ⟨_, ⟨i, below, isBoundary, rfl⟩, near⟩
  · rintro ⟨_, ⟨i, below, isBoundary, rfl⟩, near⟩
    exact ⟨i, Nat.zero_le _, below, isBoundary, near⟩

/-- The third loop goes through where the first part ends inside the name. -/
theorem suggestForParts_yields (known : ∀ name ∈ names, IsKnown name)
    (fits : names.length ≤ n) (ends : partStop given 0 ≤ given.length)
    (fuel : Nat) :
    ∀ (start : Nat) (reduced : List Char) (suggesting : Suggesting),
      given.length < fuel + min start given.length →
      reduced.length = given.length + 1 → suggesting.Sound n →
      Yields (fun _ => False) (Suggesting.Sound n)
        (suggestForParts names (given ++ [nul]) given.length fuel start
          reduced suggesting) := by
  induction fuel with
  | zero =>
      intro start reduced suggesting enough
      omega
  | succ fuel induction =>
      intro start reduced suggesting enough size sound
      rw [suggestForParts]
      by_cases more : start < given.length
      · rw [if_pos more, partEnd_eq givenText (Nat.le_of_lt more), ok_bind]
        have ordered := lt_partStop given start
        have within := partStop_le (Nat.le_of_lt more)
        have bounded : partStop given start ≤ given.length + start := by
          rcases Nat.eq_zero_or_pos start with rfl | positive
          · omega
          · omega
        obtain ⟨out, copied, outSize, isPrefix, -⟩ :=
          copyReduced_eq size ordered (Nat.le_of_lt more)
        obtain ⟨next, returned, nextSize, isReduced⟩ :=
          store_reducedEnd givenText outSize givenShort (Nat.le_of_lt more)
            ordered bounded within isPrefix
        have reducedShort :
            (reducedText given start (partStop given start)).length < 2 ^ 30 := by
          unfold reducedText
          rw [List.length_take]
          omega
        rw [copied, ok_bind, returned, ok_bind]
        have loop := @forNames_finds n (fun name => Near (name.drop 4)
            (reducedText given start (partStop given start)))
          (fun j name suggesting => do
            let env ← aflEnv name
            let given ← stringAt next 0
            let distance ← stringDistanceLevenshtein env given
            suggest j name distance suggesting) names 0
          (by
            intro name member j inside later soundLater
            have short := (known name member).short
            obtain ⟨distance, found, near⟩ :=
              @stringDistance_near (name.drop 4) _
                (by rw [List.length_drop]; omega) reducedShort
            simp only [aflEnv, if_pos (known name member).afl, ok_bind,
              isReduced, found]
            exact (suggest_finds soundLater inside name distance).congr near)
          (by omega) suggesting sound
        apply Yields.bind loop
        rintro later ⟨soundLater, -⟩
        exact induction (partStop given start) next later (by omega) nextSize
          soundLater
      · rw [if_neg more]
        exact sound

omit givenShort in
/-- Where the first part ends with the name, a NUL goes in front of the
buffer. -/
theorem suggestForParts_fails (some : given ≠ [])
    (ends : ¬partStop given 0 ≤ given.length) (huge : given.length < 2 ^ 63) (fuel : Nat)
    (size : reduced.length = given.length + 1) (suggesting : Suggesting) :
    suggestForParts names (given ++ [nul]) given.length (fuel + 1) 0 reduced
        suggesting = .error .outOfBounds := by
  have more : 0 < given.length := List.length_pos_of_ne_nil some
  have within := partStop_le (Nat.le_of_lt more)
  obtain ⟨out, copied, outSize, -, -⟩ :=
    copyReduced_eq size (lt_partStop given 0) (Nat.le_of_lt more)
  have index : ¬reducedEnd given.length 0 (partStop given 0) < out.length := by
    unfold reducedEnd
    omega
  rw [suggestForParts, if_pos more, partEnd_eq givenText (Nat.le_of_lt more),
    ok_bind, copied, ok_bind, store, if_neg index]
  rfl

end Phases

def nameOf (mispelledEnv : CString) : CString :=
  (mispelledEnv.takeWhile (· ≠ '=')).drop 4

/-- A known name is near, or it is near without one of its parts. -/
def Suggested (names : List CString) (given : CString) : Prop :=
  (∃ name ∈ names, Near (name.drop 4) given) ∨
    ∃ name ∈ names, ∃ reduced, WithoutPart (name.drop 4) reduced ∧ Near reduced given

/-- Nothing goes wrong: the function returns, or it ends the program. -/
def Safe (result : Except MemoryFault (List CString)) : Prop :=
  ∀ fault, result = .error fault → fault = .aborted

section Function

variable {names : List CString} (known : ∀ name ∈ names, IsKnown name)
include known

theorem suggestLoops_safe_iff {given : CString} (givenText : nul ∉ given)
    (givenShort : given.length < 2 ^ 30) :
    Safe (suggestLoops names (given ++ [nul]) given.length
        (List.replicate (names.length + 1) false)) ↔
      given = [] ∨ '_' ∈ given ∨ Suggested names given := by
  have start : Suggesting.Sound names.length
      { seen := List.replicate (names.length + 1) false
        found := false
        said := [] } := by
    refine ⟨by simp, fun k told => ?_⟩
    have isFalse := List.eq_of_mem_replicate (List.mem_of_getElem? told)
    cases isFalse
  obtain ⟨near, nearReturned, nearSound, nearFound⟩ :=
    (forNames_finds names 0
      (fun name member j inside suggesting sound =>
        suggestNear_finds givenText givenShort (known name member) inside
          sound)
      (by omega) _ start).returns
  obtain ⟨reduced, reducedReturned, reducedSound, reducedFound⟩ :=
    (forNames_finds names 0
      (fun name member j inside suggesting sound =>
        suggestWithoutPart_finds givenText givenShort (known name member)
          inside sound)
      (by omega) near nearSound).returns
  have allocated : ckAlloc nul (given.length + 1) =
      .ok (List.replicate (given.length + 1) nul) := by
    have limit : maxAlloc = 2 ^ 30 := rfl
    exact ckAlloc_small nul (by omega)
  have safe : ∀ said, Safe (.ok said) := fun _ _ failed => by cases failed
  rw [suggestLoops, nearReturned, ok_bind]
  cases isNear : near.found with
  | true =>
      have there := nearFound.mp isNear
      refine iff_of_true (safe _) (.inr (.inr (.inl ?_)))
      simpa using there
  | false =>
      rw [isNear] at nearFound reducedFound
      have noName : ¬∃ name ∈ names, Near (name.drop 4) given := by
        simpa using nearFound
      simp only [Bool.false_eq_true, if_false, false_or] at reducedFound ⊢
      rw [reducedReturned, ok_bind]
      cases isReduced : reduced.found with
      | true =>
          exact iff_of_true (safe _)
            (.inr (.inr (.inr (reducedFound.mp isReduced))))
      | false =>
          rw [isReduced] at reducedFound
          have noReduced : ¬∃ name ∈ names, ∃ reduced,
              WithoutPart (name.drop 4) reduced ∧ Near reduced given := by
            simpa using reducedFound
          have notSuggested : ¬Suggested names given :=
            fun suggested => suggested.elim noName noReduced
          simp only [Bool.false_eq_true, if_false]
          rw [allocated, ok_bind, or_iff_left notSuggested]
          by_cases empty : given = []
          · subst empty
            exact iff_of_true (safe _) (.inl rfl)
          · rw [or_iff_right empty, ← partStop_zero_le_iff]
            by_cases ends : partStop given 0 ≤ given.length
            · obtain ⟨last, returned, -⟩ :=
                (suggestForParts_yields givenText givenShort known
                  (Nat.le_refl _) ends (given.length + 1) 0
                  (List.replicate (given.length + 1) nul) reduced
                  (by omega) (by simp) reducedSound).returns
              rw [returned, ok_bind]
              exact iff_of_true (safe _) ends
            · rw [suggestForParts_fails givenText empty ends (by omega)
                given.length (by simp) reduced]
              refine iff_of_false (fun isSafe => ?_) ends
              cases isSafe _ rfl

/-- When nothing goes wrong. -/
theorem printSuggestedEnvs_safe (few : names.length < 2 ^ 30)
    (isText : nul ∉ mispelledEnv)
    (isAfl : 4 ≤ (mispelledEnv.takeWhile (· ≠ '=')).length) :
    Safe (printSuggestedEnvs names mispelledEnv) ↔
      maxAlloc < ((nameOf mispelledEnv).length + 1) % 2 ^ 32 ∨
        ((nameOf mispelledEnv).length + 1 < 2 ^ 32 ∧
          (nameOf mispelledEnv = [] ∨ '_' ∈ nameOf mispelledEnv ∨
            Suggested names (nameOf mispelledEnv))) := by
  have limit : maxAlloc = 2 ^ 30 := rfl
  have isLen : (mispelledEnv.takeWhile (· ≠ '=')).length - 4 =
      (nameOf mispelledEnv).length := by
    rw [nameOf, List.length_drop]
  have givenText : nul ∉ nameOf mispelledEnv := fun member =>
    isText ((List.takeWhile_sublist _).mem (List.mem_of_mem_drop member))
  have parts : mispelledEnv.takeWhile (· ≠ '=') ++
      mispelledEnv.dropWhile (· ≠ '=') = mispelledEnv :=
    List.takeWhile_append_dropWhile
  have bytes : ((mispelledEnv ++ [nul]).drop 4).take
      (nameOf mispelledEnv).length = nameOf mispelledEnv := by
    rw [← parts, List.append_assoc, List.drop_append_of_le_length isAfl, parts]
    exact List.take_left
  have source : 4 + (nameOf mispelledEnv).length ≤ (mispelledEnv ++ [nul]).length := by
    have sizes := congrArg List.length parts
    rw [List.length_append] at sizes
    rw [List.length_append, ← isLen]
    omega
  unfold printSuggestedEnvs
  simp only [isLen]
  by_cases aborts : maxAlloc < ((nameOf mispelledEnv).length + 1) % 2 ^ 32
  · refine iff_of_true (fun fault failed => ?_) (.inl aborts)
    rw [ckAlloc, if_pos aborts] at failed
    cases failed
    rfl
  · rw [or_iff_right aborts]
    by_cases short : (nameOf mispelledEnv).length + 1 < 2 ^ 32
    · rw [and_iff_right short]
      rw [Nat.mod_eq_of_lt short] at aborts
      have copied : memcpy
          (List.replicate ((nameOf mispelledEnv).length + 1) nul) 0
          (mispelledEnv ++ [nul]) 4 (nameOf mispelledEnv).length =
            .ok (nameOf mispelledEnv ++ [nul]) := by
        rw [memcpy_inside (by simp) source, bytes, Region.splice,
          List.drop_replicate, Nat.zero_add, Nat.add_sub_cancel_left]
        rfl
      rw [ckAlloc_small nul (Nat.le_of_not_lt aborts), ok_bind, copied,
        ok_bind, ckAlloc_small false (by omega), ok_bind]
      exact suggestLoops_safe_iff known givenText (by omega)
    · refine iff_of_false (fun isSafe => ?_) fun both => short both.1
      have block : ckAlloc nul ((nameOf mispelledEnv).length + 1) =
          .ok (List.replicate (((nameOf mispelledEnv).length + 1) % 2 ^ 32) nul) :=
        if_neg aborts
      have failed := @memcpy_outside _
        (List.replicate (((nameOf mispelledEnv).length + 1) % 2 ^ 32) nul)
        (mispelledEnv ++ [nul]) 0 4 (nameOf mispelledEnv).length (by omega)
        (by rw [List.length_replicate]; omega) source
      rw [block, ok_bind, failed] at isSafe
      cases isSafe _ rfl

end Function

/-- A name that is longer than all the known ones by as much as the threshold is
near to none. -/
theorem not_suggested {names : List CString} {longest : Nat}
    (bounded : ∀ name ∈ names, name.length ≤ longest) {given : CString}
    (givenShort : given.length < 2 ^ 30) (long : longest + 3 ≤ given.length) :
    ¬Suggested names given := by
  have far : ∀ s1 : CString, s1.length ≤ longest → ¬Near s1 given := by
    rintro s1 fits ⟨distance, returned, near⟩
    have lower := @stringDistanceLevenshtein_yields s1 given (by omega)
      givenShort
    rw [returned] at lower
    have atLeast : (given.length : Int) - s1.length ≤ distance := lower
    unfold envSimilarityTreshold at near
    omega
  rintro (⟨name, member, near⟩ | ⟨name, member, reduced, ⟨i, -, -, rfl⟩, near⟩)
  · refine far _ ?_ near
    have fits := bounded name member
    rw [List.length_drop]
    omega
  · refine far _ ?_ near
    have fits := bounded name member
    unfold reducedText
    rw [List.length_take, List.length_append, List.length_take,
      List.length_drop, List.length_drop]
    have ordered := lt_partStop (name.drop 4) i
    rw [List.length_drop]
    omega

theorem aflEnvironmentVariables_known (useColor : Bool) :
    ∀ name ∈ aflEnvironmentVariables useColor, IsKnown name ∧ name.length ≤ 43 := by
  have checked : ∀ useColor, (aflEnvironmentVariables useColor).all
      (fun name => "AFL_".toList.isPrefixOf name && name.length ≤ 43 &&
        !name.contains nul) = true := by
    decide +kernel
  intro name member
  have fits := List.all_eq_true.mp (checked useColor) name member
  simp only [Bool.and_eq_true, decide_eq_true_eq, Bool.not_eq_true',
    List.isPrefixOf_iff_prefix] at fits
  obtain ⟨⟨isPrefix, short⟩, noNul⟩ := fits
  refine ⟨⟨isPrefix.length_le, by omega, ?_⟩, short⟩
  intro inside
  rw [List.contains_iff_mem.mpr inside] at noNul
  cases noNul

theorem length_aflEnvironmentVariables (useColor : Bool) :
    (aflEnvironmentVariables useColor).length < 2 ^ 30 := by
  revert useColor
  decide +kernel

theorem prefix_length (isAfl : "AFL_".toList <+: mispelledEnv) :
    4 ≤ (mispelledEnv.takeWhile (· ≠ '=')).length := by
  obtain ⟨rest, rfl⟩ := isAfl
  have noEquals : ∀ c ∈ "AFL_".toList, decide (c ≠ '=') = true := by simp
  rw [List.takeWhile_append_of_pos noEquals, List.length_append]
  exact Nat.le_add_right 4 _

/-- When the suggestions for a variable `AFL_…` are safe. -/
theorem printSuggestedEnvs_safe_iff (useColor : Bool)
    {mispelledEnv : CString} (isText : nul ∉ mispelledEnv)
    (isAfl : "AFL_".toList <+: mispelledEnv) :
    Safe (printSuggestedEnvs (aflEnvironmentVariables useColor) mispelledEnv) ↔
      maxAlloc < ((nameOf mispelledEnv).length + 1) % 2 ^ 32 ∨
        ((nameOf mispelledEnv).length + 1 < 2 ^ 32 ∧
          (nameOf mispelledEnv = [] ∨ '_' ∈ nameOf mispelledEnv ∨
            Suggested (aflEnvironmentVariables useColor)
              (nameOf mispelledEnv))) :=
  printSuggestedEnvs_safe
    (fun name member => (aflEnvironmentVariables_known useColor name member).1)
    (length_aflEnvironmentVariables useColor) isText (prefix_length isAfl)

theorem printSuggestedEnvs_safe_iff_debug :
    (nul ∉ "AFL_DEBUG_X=1".toList ∧ "AFL_".toList <+: "AFL_DEBUG_X=1".toList) ∧
      (Safe (printSuggestedEnvs (aflEnvironmentVariables true)
          "AFL_DEBUG_X=1".toList) ↔
        maxAlloc < ((nameOf "AFL_DEBUG_X=1".toList).length + 1) % 2 ^ 32 ∨
          ((nameOf "AFL_DEBUG_X=1".toList).length + 1 < 2 ^ 32 ∧
            (nameOf "AFL_DEBUG_X=1".toList = [] ∨ '_' ∈ nameOf "AFL_DEBUG_X=1".toList ∨
              Suggested (aflEnvironmentVariables true)
                (nameOf "AFL_DEBUG_X=1".toList)))) :=
  ⟨by decide, printSuggestedEnvs_safe_iff true (by decide) (by decide)⟩

/-- A long name without an underscore: a NUL is written in front of a buffer. -/
theorem printSuggestedEnvs_unsafe :
    ¬Safe (printSuggestedEnvs (aflEnvironmentVariables true)
      ("AFL_".toList ++ List.replicate 60 'Q')) := by
  have isName : nameOf ("AFL_".toList ++ List.replicate 60 'Q') =
      List.replicate 60 'Q' := by decide
  have far : ¬Suggested (aflEnvironmentVariables true)
      (List.replicate 60 'Q') :=
    not_suggested
      (fun name member => (aflEnvironmentVariables_known true name member).2)
      (by simp) (by simp)
  rw [printSuggestedEnvs_safe
    (fun name member => (aflEnvironmentVariables_known true name member).1)
    (length_aflEnvironmentVariables true) (by decide)
    (prefix_length (by decide)), isName]
  rintro (aborts | ⟨-, empty | underscore | suggested⟩)
  · revert aborts
    decide
  · cases empty
  · revert underscore
    decide
  · exact far suggested

end AFLPlusPlus.SuggestedEnvs
