import AFLPlusPlus.Cache.Testcases
import AFLPlusPlus.Support.Regions

/-!
# Colorization

`colorization` replaces the bytes of a test case by others of the same type, in
ranges as large as the checksum of the trace allows, and reports the ranges that
were replaced.
-/

namespace AFLPlusPlus.Redqueen

def cmplogPositionsMax : Nat := 12 * 1024

def cmplogCorpusPercent : Nat := 5

/-- The ranges of characters that are replaced by a random one of their own. -/
def characterClasses : List (Nat × Nat) :=
  [(0x41, 0x46), (0x61, 0x66), (0x32, 0x39), (0x47, 0x5a), (0x67, 0x7a),
    (0x21, 0x2a), (0x2c, 0x2e), (0x3a, 0x40), (0x5b, 0x60), (0x7b, 0x7e)]

/-- The bytes that are replaced by a certain other one. -/
def characterPartners : List (Nat × Nat) :=
  [(0x30, 0x31), (0x31, 0x30), (0x2b, 0x2f), (0x2f, 0x2b), (0x20, 0x09),
    (0x09, 0x20), (0x0d, 0x0a), (0x0a, 0x0d), (0, 1), (1, 0), (0xff, 0)]

/-- The `switch` of `type_replace`, with the number that is drawn. -/
def replacement (byte : BitVec 8) (drawn : Nat) : BitVec 8 :=
  match characterClasses.find? fun bounds =>
      bounds.1 ≤ byte.toNat ∧ byte.toNat ≤ bounds.2 with
  | some (low, high) =>
      BitVec.ofNat 8 (low + randBelow (BitVec.ofNat 32 (1 + high - low)) drawn)
  | none =>
      match characterPartners.find? fun pair => pair.1 = byte.toNat with
      | some (_, partner) => BitVec.ofNat 8 partner
      | none => if byte < 32#8 then byte ^^^ 0x1f#8 else byte ^^^ 0x7f#8

/-- The inner loop of `type_replace`, until the byte is another one, with the
numbers that are left. -/
def replaceByte (byte : BitVec 8) : List Nat → Option (BitVec 8 × List Nat)
  | [] => none
  | drawn :: random =>
      let c := replacement byte drawn
      if c = byte then replaceByte byte random else some (c, random)

def typeReplace : List (BitVec 8) → List Nat → Option (List (BitVec 8))
  | [], _ => some []
  | byte :: buf, random =>
      (replaceByte byte random).bind fun replaced =>
        (typeReplace buf replaced.2).map (replaced.1 :: ·)

variable {random : List Nat}

theorem replaceByte_ne {byte c : BitVec 8} {rest : List Nat}
    (replaced : replaceByte byte random = some (c, rest)) : c ≠ byte := by
  induction random with
  | nil => cases replaced
  | cons drawn random induction =>
      rw [replaceByte] at replaced
      split at replaced
      · exact induction replaced
      · rename_i other
        obtain ⟨rfl, _⟩ := Prod.mk.inj (Option.some.inj replaced)
        exact other

section

variable {buf changed : List (BitVec 8)}
    (replaced : typeReplace buf random = some changed)
include replaced

theorem typeReplace_length : changed.length = buf.length := by
  induction buf generalizing changed random with
  | nil =>
      obtain rfl := Option.some.inj replaced
      rfl
  | cons byte buf induction =>
      rw [typeReplace, Option.bind_eq_some_iff] at replaced
      obtain ⟨⟨c, rest⟩, _, others⟩ := replaced
      obtain ⟨tail, found, rfl⟩ := Option.map_eq_some_iff.mp others
      exact congrArg (· + 1) (induction found)

theorem typeReplace_ne {i : Nat} (inside : i < buf.length) : changed[i]? ≠ buf[i]? := by
  induction buf generalizing changed random i with
  | nil => cases inside
  | cons byte buf induction =>
      rw [typeReplace, Option.bind_eq_some_iff] at replaced
      obtain ⟨⟨c, rest⟩, first, others⟩ := replaced
      obtain ⟨tail, found, rfl⟩ := Option.map_eq_some_iff.mp others
      cases i with
      | zero =>
          intro same
          exact replaceByte_ne first (Option.some.inj same)
      | succ i => exact induction found (Nat.lt_of_succ_lt_succ inside)

end

/-- `struct range`; `ok` is 1 once the range is replaced for good, and 2 once
it is reported. -/
structure Range where
  start : Nat
  stop : Nat
  ok : Nat

namespace Range

def size (rng : Range) : Nat := 1 + rng.stop - rng.start

def part (rng : Range) (buf : List (BitVec 8)) : List (BitVec 8) :=
  (buf.drop rng.start).take rng.size

/-- `memcpy` of the range from one buffer to another. -/
def copy (rng : Range) (destination source : List (BitVec 8)) : List (BitVec 8) :=
  Region.splice destination rng.start (rng.part source)

/-- The two ranges that a range of several bytes is split into. -/
def halves (rng : Range) : List Range :=
  if 1 < rng.size then
    [⟨rng.start + rng.size / 2, rng.stop, 0⟩,
      ⟨rng.start, rng.start + rng.size / 2 - 1, 0⟩]
  else []

end Range

/-- The loop of `pop_biggest_range`, from number `index` on. -/
def popBiggestFrom :
    List Range → Nat → Nat → Option (Nat × Range) → Option (Nat × Range)
  | [], _, _, rmax => rmax
  | r :: ranges, index, maxSize, rmax =>
      if r.ok = 0 ∧ maxSize ≤ r.size then
        popBiggestFrom ranges (index + 1) r.size (some (index, r))
      else popBiggestFrom ranges (index + 1) maxSize rmax

/-- `pop_biggest_range`: the last one of the largest ranges that are not yet
`ok`.  It stays in the list. -/
def popBiggestRange (ranges : List Range) : Option (Nat × Range) :=
  popBiggestFrom ranges 0 0 none

/-- `get_exec_checksum` and the time it takes: nothing if the execution ends the
stage. -/
structure ColorRun where
  aborts : Bool
  cksum : BitVec 64
  tooSlow : Bool

/-- What the colorization meets: run number `n` on a case, and the numbers that
are drawn. -/
structure ColorEnvironment where
  run : Nat → List (BitVec 8) → ColorRun
  random : List Nat

/-- The loop over the ranges, for `remaining` more executions from number `n`
on, or what it leaves in the buffer when it is aborted. -/
def colorRounds (environment : ColorEnvironment) (execCksum : BitVec 64)
    (backup changed : List (BitVec 8)) :
    Nat → Nat → List Range → List (BitVec 8) →
      Except (List (BitVec 8)) (List Range × List (BitVec 8))
  | 0, _, ranges, buf => .ok (ranges, buf)
  | remaining + 1, n, ranges, buf =>
      match popBiggestRange ranges with
      | none => .ok (ranges, buf)
      | some (index, rng) =>
          let replaced := rng.copy buf changed
          let run := environment.run n replaced
          if run.aborts then .error replaced
          else if run.cksum ≠ execCksum ∨ run.tooSlow = true then
            colorRounds environment execCksum backup changed remaining (n + 1)
              (rng.halves ++ ranges.eraseIdx index) (rng.copy replaced backup)
          else
            colorRounds environment execCksum backup changed remaining (n + 1)
              (ranges.set index { rng with ok := 1 }) replaced

/-- `struct tainted`: `len` bytes from `pos` on. -/
structure Tainted where
  pos : Nat
  len : Nat

/-- What the search for the next range to be reported finds: one right behind
the taint of the moment, or the first one of the case. -/
inductive Found where
  | behind (index : Nat) (rng : Range)
  | first (index : Nat) (rng : Range)
  | nothing

/-- The inner loop of the search, from number `index` on, with the first range
so far. -/
def findRange (taint : List Tainted) :
    List Range → Nat → Nat → Option (Nat × Range) → Found
  | [], _, _, r =>
      match r with
      | some (index, rng) => .first index rng
      | none => .nothing
  | rng :: ranges, index, pos, r =>
      if rng.ok = 1 ∧ rng.start < pos then
        if taint.head?.any fun t => t.pos + t.len = rng.start then
          .behind index rng
        else findRange taint ranges (index + 1) rng.start (some (index, rng))
      else findRange taint ranges (index + 1) pos r

/-- The loop that turns ranges into taint, with the number of positions.  Every
round reports a range, of which there are at most `fuel`. -/
def collectTaint : Nat → List Range → List Tainted → Nat → List Tainted × Nat
  | 0, _, taint, positions => (taint, positions)
  | fuel + 1, ranges, taint, positions =>
      match findRange taint ranges 0 (2 ^ 32 - 1) none with
      | .behind index rng =>
          collectTaint fuel (ranges.set index { rng with ok := 2 })
            (taint.modifyHead fun t => { t with len := t.len + rng.size })
            (positions + rng.size)
      | .first index rng =>
          collectTaint fuel (ranges.set index { rng with ok := 2 })
            (⟨rng.start, rng.size⟩ :: taint) (positions + rng.size)
      | .nothing => (taint, positions)

/-- The variables of the fuzzer that decide what is done with the taint. -/
structure ColorStats where
  cmplogLvl : Nat
  activePaths : Nat
  colorizeSuccess : Nat

/-- The taint is too much of the case to be of use. -/
def ColorStats.unsatisfactory (afl : ColorStats) (len positions : Nat) : Bool :=
  decide (afl.colorizeSuccess ≠ 0 ∧ afl.cmplogLvl < 3 ∧
    cmplogPositionsMax < positions ∧ len / positions = 1 ∧
    cmplogCorpusPercent < afl.activePaths / afl.colorizeSuccess)

/-- How `colorization` ends: an execution ends the stage, or it hands over the
taint, no elements for `NULL`. -/
inductive ColorOutcome where
  | checksumFail (buf : List (BitVec 8))
  | finished (buf : List (BitVec 8)) (taint : List Tainted) (positions : Nat)

/-- `colorization` of a case with bytes.  There is no result if no replacement
is ever drawn for some byte. -/
def colorization (environment : ColorEnvironment) (afl : ColorStats)
    (buf : List (BitVec 8)) : Option ColorOutcome :=
  let original := environment.run 0 buf
  if original.aborts then some (.checksumFail buf)
  else
    (typeReplace buf environment.random).map fun changed =>
      match colorRounds environment original.cksum buf changed
          (buf.length * 2 % 2 ^ 32) 1 [⟨0, buf.length - 1, 0⟩] buf with
      | .error left => .checksumFail left
      | .ok (ranges, colored) =>
          let (taint, positions) := collectTaint ranges.length ranges [] 0
          if afl.unsatisfactory buf.length positions then
            .finished colored [] positions
          else .finished colored taint positions

variable {environment : ColorEnvironment} {rest : List Range} {index : Nat} {rng : Range}

theorem popBiggestFrom_some {ranges : List Range} {maxSize : Nat}
    {rmax : Option (Nat × Range)} {popped : Nat × Range}
    (pops : popBiggestFrom ranges index maxSize rmax = some popped) :
    rmax = some popped ∨ ∃ i, popped.1 = index + i ∧
      ranges[i]? = some popped.2 ∧ popped.2.ok = 0 := by
  induction ranges generalizing index maxSize rmax with
  | nil => exact .inl pops
  | cons r ranges induction =>
      rw [popBiggestFrom] at pops
      split at pops
      · rename_i larger
        rcases induction pops with here | ⟨i, position, found, fresh⟩
        · obtain rfl := Option.some.inj here
          exact .inr ⟨0, rfl, rfl, larger.1⟩
        · exact .inr ⟨i + 1, by omega, found, fresh⟩
      · rcases induction pops with before | ⟨i, position, found, fresh⟩
        · exact .inl before
        · exact .inr ⟨i + 1, by omega, found, fresh⟩

theorem popBiggestRange_some {ranges : List Range}
    (pops : popBiggestRange ranges = some (index, rng)) :
    ranges[index]? = some rng ∧ rng.ok = 0 := by
  rcases popBiggestFrom_some pops with none | ⟨i, position, found, fresh⟩
  · cases none
  · obtain rfl : index = i := position.trans (Nat.zero_add i)
    exact ⟨found, fresh⟩

def Range.Apart (rng other : Range) : Prop :=
  rng.stop < other.start ∨ other.stop < rng.start

def Range.Contains (rng : Range) (i : Nat) : Prop := rng.start ≤ i ∧ i ≤ rng.stop

instance (rng : Range) (i : Nat) : Decidable (rng.Contains i) :=
  inferInstanceAs (Decidable (_ ∧ _))

def Replaced (ranges : List Range) (i : Nat) : Prop :=
  ∃ rng ∈ ranges, rng.ok = 1 ∧ rng.Contains i

/-- The ranges are apart from each other and inside of the case, and the buffer
holds the new bytes in those that are `ok` and the old ones elsewhere. -/
structure Colored (orig changed : List (BitVec 8)) (ranges : List Range)
    (buf : List (BitVec 8)) : Prop where
  length : buf.length = orig.length
  inside : ∀ rng ∈ ranges, rng.start ≤ rng.stop ∧ rng.stop < orig.length
  apart : ranges.Pairwise Range.Apart
  replaced : ∀ i, Replaced ranges i → buf[i]? = changed[i]?
  kept : ∀ i, ¬Replaced ranges i → buf[i]? = orig[i]?

variable {orig changed buf : List (BitVec 8)} {ranges : List Range}

variable {afl : ColorStats} {others : List Range} {taint : List Tainted} {positions : Nat}

theorem replaced_perm (perm : ranges.Perm others) (i : Nat) :
    Replaced ranges i ↔ Replaced others i := by
  unfold Replaced
  simp only [perm.mem_iff]

/-- A range that is found comes to the front, and so does one that takes its
place. -/
theorem perm_found {place : Nat} (found : ranges[place]? = some rng) (new : Range) :
    ranges.Perm (rng :: ranges.eraseIdx place) ∧
      (ranges.set place new).Perm (new :: ranges.eraseIdx place) := by
  obtain ⟨inside, isRange⟩ := List.getElem?_eq_some_iff.mp found
  have front := List.getElem_cons_eraseIdx_perm inside
  rw [isRange] at front
  exact ⟨front.symm, List.set_perm_cons_eraseIdx inside _⟩

theorem Colored.perm (colored : Colored orig changed ranges buf)
    (perm : ranges.Perm others) :
    Colored orig changed others buf where
  length := colored.length
  inside rng member := colored.inside rng (perm.mem_iff.mpr member)
  apart := perm.pairwise colored.apart fun apart => Or.symm apart
  replaced i replaced := colored.replaced i ((replaced_perm perm i).mpr replaced)
  kept i kept :=
    colored.kept i fun replaced => kept ((replaced_perm perm i).mp replaced)

theorem Colored.start (positive : 0 < orig.length) :
    Colored orig changed [⟨0, orig.length - 1, 0⟩] orig where
  length := rfl
  inside := by
    intro rng member
    rw [List.mem_singleton.mp member]
    dsimp only
    omega
  apart := List.pairwise_singleton _ _
  replaced := by
    rintro i ⟨rng, member, isOk, _⟩
    rw [List.mem_singleton.mp member] at isOk
    cases isOk
  kept := fun _ _ => rfl

section

variable {destination source : List (BitVec 8)}
    (sameLength : source.length = destination.length)
    (inside : rng.start ≤ rng.stop ∧ rng.stop < destination.length)
include sameLength inside

theorem Range.getElem?_copy (i : Nat) :
    (rng.copy destination source)[i]? =
      if rng.Contains i then source[i]? else destination[i]? := by
  have partLength : (rng.part source).length = rng.size := by
    rw [Range.part, List.length_take, List.length_drop, Range.size]
    omega
  have headLength : (destination.take rng.start).length = rng.start :=
    List.length_take_of_le (by omega)
  rw [Range.copy, Region.splice, partLength, List.append_assoc]
  by_cases before : i < rng.start
  · rw [List.getElem?_append_left (by omega), List.getElem?_take_of_lt before,
      if_neg fun contains => absurd contains.1 (Nat.not_le.mpr before)]
  · rw [List.getElem?_append_right (by omega), headLength]
    by_cases here : i ≤ rng.stop
    · rw [List.getElem?_append_left (by rw [partLength, Range.size]; omega),
        if_pos ⟨Nat.le_of_not_lt before, here⟩, Range.part,
        List.getElem?_take_of_lt (by rw [Range.size]; omega),
        List.getElem?_drop, Nat.add_sub_of_le (Nat.le_of_not_lt before)]
    · rw [List.getElem?_append_right (by rw [partLength, Range.size]; omega),
        if_neg fun contains => here contains.2, partLength,
        List.getElem?_drop]
      congr 1
      unfold Range.size
      omega

theorem Range.length_copy :
    (rng.copy destination source).length = destination.length := by
  rw [Range.copy]
  apply Region.length_splice
  rw [Range.part, List.length_take, List.length_drop, Range.size]
  omega

end

theorem Range.halves_spec (rng : Range) (inside : rng.start ≤ rng.stop) :
    rng.halves.Pairwise Range.Apart ∧
      ∀ half ∈ rng.halves, half.ok = 0 ∧ rng.start ≤ half.start ∧
        half.start ≤ half.stop ∧ half.stop ≤ rng.stop := by
  unfold Range.halves
  split
  · rename_i several
    unfold Range.size at several ⊢
    refine ⟨List.pairwise_pair.mpr (.inr ?_), ?_⟩
    · dsimp only
      omega
    · intro half member
      rcases List.mem_cons.mp member with rfl | member
      · dsimp only
        omega
      · obtain rfl := List.mem_singleton.mp member
        dsimp only
        omega
  · exact ⟨.nil, fun half member => absurd member List.not_mem_nil⟩

section

variable (colored : Colored orig changed (rng :: rest) buf)
include colored

theorem Colored.accept (sameLength : changed.length = orig.length) :
    Colored orig changed ({ rng with ok := 1 } :: rest)
      (rng.copy buf changed) := by
  have within := colored.inside rng List.mem_cons_self
  have found := rng.getElem?_copy (sameLength.trans colored.length.symm)
    (colored.length ▸ within)
  refine ⟨?_, ?_, ?_, ?_, ?_⟩
  · rw [Range.length_copy (sameLength.trans colored.length.symm)
      (colored.length ▸ within), colored.length]
  · intro other member
    rcases List.mem_cons.mp member with rfl | member
    · exact within
    · exact colored.inside other (List.mem_cons_of_mem _ member)
  · obtain ⟨first, others⟩ := List.pairwise_cons.mp colored.apart
    exact List.pairwise_cons.mpr ⟨first, others⟩
  · rintro i ⟨other, member, isOk, contains⟩
    rw [found]
    split
    · rfl
    · rename_i outside
      rcases List.mem_cons.mp member with rfl | member
      · exact absurd contains outside
      · exact colored.replaced i
          ⟨other, List.mem_cons_of_mem _ member, isOk, contains⟩
  · intro i kept
    have outside : ¬rng.Contains i := fun contains =>
      kept ⟨_, List.mem_cons_self, rfl, contains⟩
    rw [found, if_neg outside]
    apply colored.kept
    rintro ⟨other, member, isOk, contains⟩
    rcases List.mem_cons.mp member with rfl | member
    · exact outside contains
    · exact kept ⟨other, List.mem_cons_of_mem _ member, isOk, contains⟩

theorem Colored.getElem?_restored (sameLength : changed.length = orig.length) (i : Nat) :
    (rng.copy (rng.copy buf changed) orig)[i]? =
      if rng.Contains i then orig[i]? else buf[i]? := by
  have within : rng.start ≤ rng.stop ∧ rng.stop < buf.length :=
    colored.length ▸ colored.inside rng List.mem_cons_self
  have length := Range.length_copy (sameLength.trans colored.length.symm)
    within
  rw [rng.getElem?_copy (length.trans colored.length).symm (length ▸ within)]
  split
  · rfl
  · rename_i outside
    rw [rng.getElem?_copy (sameLength.trans colored.length.symm) within,
      if_neg outside]

theorem Colored.reject (fresh : rng.ok = 0) (sameLength : changed.length = orig.length) :
    Colored orig changed (rng.halves ++ rest)
      (rng.copy (rng.copy buf changed) orig) := by
  have within := colored.inside rng List.mem_cons_self
  have within' : rng.start ≤ rng.stop ∧ rng.stop < buf.length :=
    colored.length ▸ within
  have length := Range.length_copy (sameLength.trans colored.length.symm)
    within'
  have found := colored.getElem?_restored sameLength
  obtain ⟨halvesApart, halves⟩ := rng.halves_spec within.1
  obtain ⟨first, others⟩ := List.pairwise_cons.mp colored.apart
  have same : ∀ i, Replaced (rng.halves ++ rest) i ↔ Replaced (rng :: rest) i := by
    intro i
    constructor
    · rintro ⟨other, member, isOk, contains⟩
      rcases List.mem_append.mp member with half | member
      · exact absurd (isOk.symm.trans (halves other half).1) Nat.one_ne_zero
      · exact ⟨other, List.mem_cons_of_mem _ member, isOk, contains⟩
    · rintro ⟨other, member, isOk, contains⟩
      rcases List.mem_cons.mp member with rfl | member
      · exact absurd (isOk.symm.trans fresh) Nat.one_ne_zero
      · exact ⟨other, List.mem_append_right _ member, isOk, contains⟩
  refine ⟨?_, ?_, ?_, ?_, ?_⟩
  · rw [Range.length_copy (length.trans colored.length).symm
      (length ▸ within'), length, colored.length]
  · intro other member
    rcases List.mem_append.mp member with half | member
    · have bounds := halves other half
      omega
    · exact colored.inside other (List.mem_cons_of_mem _ member)
  · refine List.pairwise_append.mpr ⟨halvesApart, others, ?_⟩
    intro half member other member'
    have bounds := halves half member
    have apart := first other member'
    unfold Range.Apart at apart ⊢
    omega
  · intro i replaced
    rw [found]
    obtain ⟨other, member, isOk, contains⟩ := (same i).mp replaced
    rcases List.mem_cons.mp member with rfl | member'
    · exact absurd (isOk.symm.trans fresh) Nat.one_ne_zero
    · have apart := first other member'
      rw [if_neg (by
        unfold Range.Apart at apart
        unfold Range.Contains at contains ⊢
        omega)]
      exact colored.replaced i ⟨other, member, isOk, contains⟩
  · intro i kept
    rw [found]
    split
    · rfl
    · exact colored.kept i fun replaced => kept ((same i).mpr replaced)

end

theorem Colored.rounds {execCksum : BitVec 64} (sameLength : changed.length = orig.length)
    {remaining n : Nat} {out : List Range × List (BitVec 8)}
    (colored : Colored orig changed ranges buf)
    (returns : colorRounds environment execCksum orig changed remaining n
      ranges buf = .ok out) :
    Colored orig changed out.1 out.2 := by
  induction remaining generalizing n ranges buf with
  | zero =>
      obtain rfl := Except.ok.inj returns
      exact colored
  | succ remaining induction =>
      rw [colorRounds] at returns
      split at returns
      · obtain rfl := Except.ok.inj returns
        exact colored
      · rename_i index rng pops
        obtain ⟨found, fresh⟩ := popBiggestRange_some pops
        obtain ⟨front, replaced⟩ := perm_found found { rng with ok := 1 }
        have chosen := colored.perm front
        dsimp only at returns
        split at returns
        · cases returns
        · split at returns
          · exact induction (chosen.reject fresh sameLength) returns
          · have accepted := (chosen.accept sameLength).perm replaced.symm
            exact induction accepted returns

/-- What stands behind an outcome with a taint. -/
structure Finished (environment : ColorEnvironment) (afl : ColorStats)
    (orig changed : List (BitVec 8)) (ranges : List Range)
    (buf : List (BitVec 8)) (taint : List Tainted) (positions : Nat) :
    Prop where
  replaces : typeReplace orig environment.random = some changed
  rounds : colorRounds environment (environment.run 0 orig).cksum orig changed
    (orig.length * 2 % 2 ^ 32) 1 [⟨0, orig.length - 1, 0⟩] orig = .ok (ranges, buf)
  counted : positions = (collectTaint ranges.length ranges [] 0).2
  handedOver : taint =
    if afl.unsatisfactory orig.length positions = true then []
    else (collectTaint ranges.length ranges [] 0).1

theorem colorization_finished (finished : colorization environment afl orig =
      some (.finished buf taint positions)) :
    ∃ changed ranges,
      Finished environment afl orig changed ranges buf taint positions := by
  unfold colorization at finished
  dsimp only at finished
  split at finished
  · cases finished
  · obtain ⟨changed, replaces, outcome⟩ := Option.map_eq_some_iff.mp finished
    split at outcome
    · cases outcome
    · rename_i ranges colored rounds
      refine ⟨changed, ranges, ?_⟩
      split at outcome
      · rename_i unsatisfactory
        obtain ⟨rfl, rfl, rfl⟩ := ColorOutcome.finished.inj outcome
        exact ⟨replaces, rounds, rfl, (if_pos unsatisfactory).symm⟩
      · rename_i satisfactory
        obtain ⟨rfl, rfl, rfl⟩ := ColorOutcome.finished.inj outcome
        exact ⟨replaces, rounds, rfl, (if_neg satisfactory).symm⟩

end AFLPlusPlus.Redqueen
