import AFLPlusPlus.Redqueen.RtnRestored
import AFLPlusPlus.Support.Oracle

/-!
# What a call may leave

Where an attempt of a round does not fit, the executions may come to nothing up
to this attempt, and it may find something.  Then the call leaves the byte that
was tried last, or what was put back for digits.
-/

namespace AFLPlusPlus.Redqueen

open EarlyExit

instance : Inhabited ItsOutcome := ⟨.nothing⟩

variable {byte : BitVec 8}

namespace ItsEnvironment

/-- The stage with other answers of the target. -/
def answering (afl : ItsEnvironment)
    (outcome : Nat → List (BitVec 8) → ItsOutcome) : ItsEnvironment :=
  { afl with outcome }

variable {afl : ItsEnvironment} {its : ItsState}

theorem may_itsFuzz (finds : Bool) (input : Buffer) (site : Site)
    (offset count : Nat) :
    May ItsState.execs
      (fun outcome => (afl.answering outcome).itsFuzz input site offset count)
      its fun _ next =>
        next.buf = its.buf ∧ next.status = if finds then 1 else 2 := by
  cases finds with
  | false =>
      refine ⟨fun _ _ => .nothing, (),
        { its with status := 2, execs := its.execs + 1 }, Nat.le_succ _,
        ⟨rfl, rfl⟩, ?_⟩
      intro outcome same
      have answer : (afl.answering outcome).outcome its.execs
          (input.loadBytes 0 (afl.answering outcome).len) = .nothing :=
        congrFun (same its.execs (Nat.le_refl _) (Nat.lt_succ_self _)) _
      unfold itsFuzz
      rw [OptionT.run_mk, answer]
  | true =>
      refine ⟨fun _ _ => .crash, (),
        afl.found input site false offset count its, Nat.le_succ _,
        ⟨rfl, rfl⟩, ?_⟩
      intro outcome same
      have answer : (afl.answering outcome).outcome its.execs
          (input.loadBytes 0 (afl.answering outcome).len) = .crash :=
        congrFun (same its.execs (Nat.le_refl _) (Nat.lt_succ_self _)) _
      unfold itsFuzz
      rw [OptionT.run_mk, answer]
      rfl

theorem may_attempt (finds : Bool) (site : Site) (offset : Nat)
    (bytes : List (BitVec 8)) :
    May ItsState.execs
      (fun outcome => (afl.answering outcome).attempt site offset bytes)
      its fun _ next => next.buf = its.buf.storeBytes offset bytes ∧
        next.status = if finds then 1 else 2 := by
  apply May.bind
  apply May.modify rfl
  apply May.bind
  apply May.get
  exact may_itsFuzz finds _ _ _ _

variable {rest : (Nat → List (BitVec 8) → ItsOutcome) → Its Unit} {k place : Nat}
    {reached : Unit → ItsState → Prop}

/-- Bytes that are put back in front of a place. -/
theorem may_storeBuf_behind (offset : Nat) (bytes : List (BitVec 8))
    (behind : offset + bytes.length ≤ place) (holds : its.buf place = byte) :
    May ItsState.execs
      (fun _ : Nat → List (BitVec 8) → ItsOutcome => storeBuf offset bytes)
      its fun _ next => next.buf place = byte := by
  apply May.modify rfl
  exact (Buffer.storeBytes_outside _ (.inr behind)).trans holds

theorem may_combine (offset count : Nat) :
    May ItsState.execs
      (fun _ : Nat → List (BitVec 8) → ItsOutcome =>
        Redqueen.combine offset count)
      its fun _ next => next.buf = its.buf ∧ next.status = its.status := by
  apply May.modify
  · unfold ItsState.combine
    split <;> rfl
  · unfold ItsState.combine
    split
    · exact ⟨rfl, rfl⟩
    · exact ⟨rfl, rfl⟩

/-- A find ends the attempts of a round that ask for it. -/
theorem may_skipped {again : (Nat → List (BitVec 8) → ItsOutcome) → Its Unit}
    (found : its.status = 1) (may : May ItsState.execs rest its reached) :
    May ItsState.execs
      (fun outcome => unlessFound (again outcome) >>= fun _ => rest outcome)
      its reached := by
  apply May.bind
  apply May.bind
  apply May.get
  apply May.ite
  · exact fun none => absurd found none
  · exact fun _ => May.pure () may

theorem may_attempt_nothing (site : Site) (offset : Nat)
    (bytes : List (BitVec 8)) :
    May ItsState.execs
      (fun outcome => (afl.answering outcome).attempt site offset bytes)
      its fun _ next => next.status ≠ 1 := by
  apply (may_attempt false site offset bytes).ending
  intro _ next attempted
  rw [attempted.2]
  decide

theorem may_directRound_nothing (h : RtnArguments) (idx i : Nat)
    (none : its.status ≠ 1) :
    May ItsState.execs
      (fun outcome => (afl.answering outcome).directRound h idx i ())
      its fun _ next => next.status ≠ 1 := by
  apply May.bind
  apply May.get
  apply May.ite_same fun _ _ => Iff.rfl
  · intro _
    exact May.pure _ none
  · intro _
    apply May.bind
    apply May.modify rfl
    apply May.bind
    apply May.get
    apply May.bind
    apply (may_itsFuzz false _ _ _ _).ending
    intro _ next executed
    apply May.bind
    apply (may_combine _ _).ending
    intro _ last combined
    apply May.pure
    rw [combined.2, executed.2]
    decide

theorem may_prefixRounds_nothing (h : RtnArguments) (save : Buffer)
    (maxTo from_ count : Nat) (none : its.status ≠ 1) :
    May ItsState.execs
      (fun outcome =>
        forFrom ((afl.answering outcome).prefixRound h save maxTo) from_ count
          ())
      its fun _ next => next.status ≠ 1 := by
  refine May.forFrom (fun pre _ its none => ?_) from_ count () its none
  apply May.bind
  apply May.get
  apply May.bind
  have tries : May ItsState.execs
      (fun outcome => onlyIf (its.status ≠ 1 ∧
          its.buf.loadBytes (h.idx - pre) pre = h.repl.loadBytes 0 pre) do
        let i ← forFrom
          ((afl.answering outcome).directRound h (h.idx - pre)) 0
          ((afl.answering outcome).rtnItsLen h + pre) ()
        storeBuf (h.idx - pre) (save.loadBytes (maxTo - pre) i))
      its fun _ next => next.status ≠ 1 := by
    refine May.onlyIf (fun _ => none) fun _ => ?_
    apply May.bind
    have rounds := May.forFrom (fun i (_ : Unit) its none =>
      @may_directRound_nothing afl its h (h.idx - pre) i none) 0
        (afl.rtnItsLen h + pre) () its none
    apply rounds.ending
    intro _ next none
    exact May.modify rfl none
  apply tries.ending
  intro _ next none
  exact May.pure _ none

section Round

variable {h : RtnArguments} {save : Buffer} {i : Nat} {c : RtnCounts}

def FoundWith (place : Nat) (byte : BitVec 8) (its : ItsState) : Prop :=
  its.status = 1 ∧ its.buf place = byte

theorem may_fromDigits_nothing (none : its.status ≠ 1) :
    May ItsState.execs (fun outcome => onlyIf (i < 16 ∧ i < c.tohex) <|
        (afl.answering outcome).attempt
          (.fromDigits (decide (c.WritesDigits i ∨ i < c.xor))) h.idx
          (c.fromDigits h.repl i))
      its fun _ next => next.status ≠ 1 :=
  May.onlyIf (fun _ => none) fun _ => may_attempt_nothing _ _ _

theorem may_toDigits_nothing (none : its.status ≠ 1) :
    May ItsState.execs (fun outcome => onlyIf (c.WritesDigits i) do
        (afl.answering outcome).attempt .toDigits h.idx (c.toDigits h.repl i)
        storeBuf (h.idx + i) (save.loadBytes i (i + 1 + c.digitPrefix.length)))
      its fun _ next => next.status ≠ 1 := by
  refine May.onlyIf (fun _ => none) fun _ => ?_
  apply May.bind
  apply (may_attempt_nothing _ _ _).ending
  intro _ next none
  exact May.modify rfl none

theorem may_xor_nothing (none : its.status ≠ 1) :
    May ItsState.execs (fun outcome => onlyIf (i < c.xor) <|
        (afl.answering outcome).tryBytes h i fun j =>
          h.repl j ^^^ c.xorVal.getD j 0)
      its fun _ next => next.status ≠ 1 :=
  May.onlyIf (fun _ => none) fun _ => may_attempt_nothing _ _ _

theorem may_unlessFound_nothing (possible : Prop) [Decidable possible]
    (byte : Nat → BitVec 8) (none : its.status ≠ 1) :
    May ItsState.execs (fun outcome => unlessFound <| onlyIf possible <|
        (afl.answering outcome).tryBytes h i byte)
      its fun _ next => next.status ≠ 1 := by
  apply May.bind
  apply May.get
  apply May.ite
  · intro _
    exact May.onlyIf (fun _ => none) fun _ => may_attempt_nothing _ _ _
  · exact fun found => May.pure () none

theorem may_tryBytes_found (byte : Nat → BitVec 8) :
    May ItsState.execs
      (fun outcome => (afl.answering outcome).tryBytes h i byte)
      its fun _ => FoundWith (h.idx + i) (byte i) := by
  apply (may_attempt true _ _ _).ending
  rintro _ next ⟨written, found⟩
  refine ⟨found, ?_⟩
  rw [written]
  apply Buffer.spells_storeBytes
  rw [List.getElem?_map, List.getElem?_range (Nat.lt_succ_self i)]
  rfl

theorem may_unlessFound_found {possible : Prop} [Decidable possible]
    (holds : possible) (byte : Nat → BitVec 8) (none : its.status ≠ 1) :
    May ItsState.execs (fun outcome => unlessFound <| onlyIf possible <|
        (afl.answering outcome).tryBytes h i byte)
      its fun _ => FoundWith (h.idx + i) (byte i) := by
  apply May.bind
  apply May.get
  apply May.ite
  · intro _
    exact May.onlyIf (fun fails => absurd holds fails)
      fun _ => may_tryBytes_found byte
  · exact fun found => absurd none found

theorem may_combine_found (offset count : Nat) (found : FoundWith place byte its) :
    May ItsState.execs
      (fun _ : Nat → List (BitVec 8) → ItsOutcome =>
        Redqueen.combine offset count)
      its fun _ => FoundWith place byte := by
  apply (may_combine offset count).ending
  intro _ next same
  exact ⟨same.2.trans found.1, (congrFun same.1 place).trans found.2⟩

/-- The first three attempts may find nothing. -/
theorem may_behindXor (none : its.status ≠ 1)
    (may : ∀ next : ItsState, next.status ≠ 1 → May ItsState.execs rest next reached) :
    May ItsState.execs (fun outcome => do
        onlyIf (i < 16 ∧ i < c.tohex) <|
          (afl.answering outcome).attempt
            (.fromDigits (decide (c.WritesDigits i ∨ i < c.xor))) h.idx
            (c.fromDigits h.repl i)
        onlyIf (c.WritesDigits i) do
          (afl.answering outcome).attempt .toDigits h.idx (c.toDigits h.repl i)
          storeBuf (h.idx + i)
            (save.loadBytes i (i + 1 + c.digitPrefix.length))
        onlyIf (i < c.xor) <|
          (afl.answering outcome).tryBytes h i fun j =>
            h.repl j ^^^ c.xorVal.getD j 0
        rest outcome)
      its reached := by
  apply May.bind
  apply (may_fromDigits_nothing none).ending
  intro _ its none
  apply May.bind
  apply (may_toDigits_nothing none).ending
  intro _ its none
  apply May.bind
  apply (may_xor_nothing none).ending
  exact fun _ => may

theorem may_transformAttempts_nothing (none : its.status ≠ 1) :
    May ItsState.execs
      (fun outcome => (afl.answering outcome).transformAttempts h save i c)
      its fun _ next => next.status ≠ 1 := by
  apply may_behindXor none
  intro its none
  apply May.bind
  apply (may_unlessFound_nothing _ _ none).ending
  intro _ its none
  apply May.bind
  apply (may_unlessFound_nothing _ _ none).ending
  intro _ its none
  apply May.bind
  apply (may_unlessFound_nothing _ _ none).ending
  intro _ its none
  apply (may_combine _ _).ending
  intro _ next same
  rwa [same.2]

/-- The bytes that digits stand for find something, and nothing is written over
them. -/
theorem may_left_fromDigits (early : i < 16) (digits : i < c.tohex)
    (noDigits : ¬c.WritesDigits i) (noXor : ¬i < c.xor)
    (last : (c.fromDigits h.repl i)[i]? = some byte) :
    May ItsState.execs
      (fun outcome => (afl.answering outcome).transformAttempts h save i c)
      its fun _ => FoundWith (h.idx + i) byte := by
  apply May.bind
  refine May.onlyIf (fun fails => absurd ⟨early, digits⟩ fails) fun _ => ?_
  apply (may_attempt true _ _ _).ending
  rintro _ its ⟨written, found⟩
  have left : FoundWith (h.idx + i) byte its := by
    refine ⟨found, ?_⟩
    rw [written]
    exact Buffer.spells_storeBytes _ _ _ i byte last
  apply May.bind
  refine May.onlyIf (fun _ => ?_) fun writes => absurd writes noDigits
  apply May.bind
  refine May.onlyIf (fun _ => ?_) fun xor => absurd xor noXor
  apply may_skipped found
  apply may_skipped found
  apply may_skipped found
  exact may_combine_found _ _ left

section

variable (none : its.status ≠ 1)
include none

/-- Digits find something, and bytes behind the ones that are tried are put
back. -/
theorem may_left_toDigits (writes : c.WritesDigits i) (behind : i < k)
    (back : k < i + (i + 1 + c.digitPrefix.length)) :
    May ItsState.execs
      (fun outcome => (afl.answering outcome).transformAttempts h save i c)
      its fun _ => FoundWith (h.idx + k) (save k) := by
  apply May.bind
  apply (may_fromDigits_nothing none).ending
  intro _ its none
  apply May.bind
  refine May.onlyIf (fun fails => absurd writes fails) fun _ => ?_
  apply May.bind
  apply (may_attempt true _ _ _).ending
  rintro _ its ⟨_, found⟩
  apply May.modify rfl
  have left : FoundWith (h.idx + k) (save k) { its with
      buf := its.buf.storeBytes (h.idx + i)
        (save.loadBytes i (i + 1 + c.digitPrefix.length)) } := by
    refine ⟨found, ?_⟩
    have held := Buffer.spells_storeBytes its.buf (h.idx + i)
      (save.loadBytes i (i + 1 + c.digitPrefix.length)) (k - i) (save k) (by
        rw [Buffer.loadBytes, List.getElem?_map,
          List.getElem?_range (by omega), Option.map_some,
          Nat.add_sub_of_le (Nat.le_of_lt behind)])
    rwa [show h.idx + i + (k - i) = h.idx + k by omega] at held
  generalize { its with buf := _ } = its at left
  apply May.bind
  have third : May ItsState.execs (fun outcome => onlyIf (i < c.xor) <|
        (afl.answering outcome).tryBytes h i fun j =>
          h.repl j ^^^ c.xorVal.getD j 0)
      its fun _ => FoundWith (h.idx + k) (save k) := by
    refine May.onlyIf (fun _ => left) fun _ => ?_
    apply (may_attempt true _ _ _).ending
    rintro _ next ⟨written, found⟩
    refine ⟨found, ?_⟩
    rw [written, Buffer.storeBytes_outside]
    · exact left.2
    · rw [List.length_map, List.length_range]
      omega
  apply third.ending
  intro _ its left
  apply may_skipped left.1
  apply may_skipped left.1
  apply may_skipped left.1
  exact may_combine_found _ _ left

theorem may_left_xor (xor : i < c.xor) :
    May ItsState.execs
      (fun outcome => (afl.answering outcome).transformAttempts h save i c)
      its fun _ =>
        FoundWith (h.idx + i) (h.repl i ^^^ c.xorVal.getD i 0) := by
  apply May.bind
  apply (may_fromDigits_nothing none).ending
  intro _ its none
  apply May.bind
  apply (may_toDigits_nothing none).ending
  intro _ its none
  apply May.bind
  refine May.onlyIf (fun fails => absurd xor fails) fun _ => ?_
  apply (may_tryBytes_found _).ending
  intro _ its left
  apply may_skipped left.1
  apply may_skipped left.1
  apply may_skipped left.1
  exact may_combine_found _ _ left

theorem may_left_arith (arith : i < c.arith) :
    May ItsState.execs
      (fun outcome => (afl.answering outcome).transformAttempts h save i c)
      its fun _ => FoundWith (h.idx + i) (h.repl i - c.arithVal.getD i 0) := by
  apply may_behindXor none
  intro its none
  apply May.bind
  apply (may_unlessFound_found arith _ none).ending
  intro _ its left
  apply may_skipped left.1
  apply may_skipped left.1
  exact may_combine_found _ _ left

theorem may_left_toupper (toupper : i < c.toupper) :
    May ItsState.execs
      (fun outcome => (afl.answering outcome).transformAttempts h save i c)
      its fun _ => FoundWith (h.idx + i) (h.repl i ||| 0x20#8) := by
  apply may_behindXor none
  intro its none
  apply May.bind
  apply (may_unlessFound_nothing _ _ none).ending
  intro _ its none
  apply May.bind
  apply (may_unlessFound_found toupper _ none).ending
  intro _ its left
  apply may_skipped left.1
  exact may_combine_found _ _ left

theorem may_left_tolower (tolower : i < c.tolower) :
    May ItsState.execs
      (fun outcome => (afl.answering outcome).transformAttempts h save i c)
      its fun _ => FoundWith (h.idx + i) (h.repl i &&& 0x5f#8) := by
  apply may_behindXor none
  intro its none
  apply May.bind
  apply (may_unlessFound_nothing _ _ none).ending
  intro _ its none
  apply May.bind
  apply (may_unlessFound_nothing _ _ none).ending
  intro _ its none
  apply May.bind
  apply (may_unlessFound_found tolower _ none).ending
  exact fun _ its left => may_combine_found _ _ left

end

theorem may_transformRound {reached : ItsState → Prop}
    (attempts : May ItsState.execs (fun outcome =>
        (afl.answering outcome).transformAttempts h save i
          (c.count afl.len afl.orig its.buf h i))
      its fun _ => reached) :
    May ItsState.execs
      (fun outcome => (afl.answering outcome).transformRound h save i c)
      its fun step next => reached next ∧
        step =
          if (c.count afl.len afl.orig its.buf h i).Stuck i ∨
              h.repl i ≠ h.changedVal i ∨ next.status = 1 then
            .done (c.count afl.len afl.orig its.buf h i)
          else .yield (c.count afl.len afl.orig its.buf h i) := by
  apply May.bind
  apply May.get
  apply May.bind
  apply attempts.ending
  intro _ next holds
  apply May.bind
  apply May.get
  apply May.ite_same fun _ _ => Iff.rfl
  · intro stops
    refine May.pure
      (ForInStep.done (c.count afl.len afl.orig its.buf h i)) ?_
    exact ⟨holds, (if_pos (stops default)).symm⟩
  · intro goesOn
    refine May.pure
      (ForInStep.yield (c.count afl.len afl.orig its.buf h i)) ?_
    exact ⟨holds, (if_neg (goesOn default)).symm⟩

end Round

theorem answering_countsAt (outcome : Nat → List (BitVec 8) → ItsOutcome)
    (buf : Buffer) (h : RtnArguments) (i : Nat) :
    (afl.answering outcome).countsAt buf h i = afl.countsAt buf h i := by
  induction i with
  | zero => rfl
  | succ i induction =>
      rw [countsAt, induction]
      rfl

theorem answering_reached (outcome : Nat → List (BitVec 8) → ItsOutcome)
    {buf : Buffer} {h : RtnArguments} {i : Nat} :
    (afl.answering outcome).Reached buf h i ↔ afl.Reached buf h i := by
  unfold Reached
  simp only [answering_countsAt]

section Rounds

variable {h : RtnArguments} {save buf : Buffer} {i : Nat}

/-- A round before the one that is left, in which nothing is found. -/
def Onward (afl : ItsEnvironment) (buf : Buffer) (h : RtnArguments) (i : Nat)
    (c : RtnCounts) (its : ItsState) : Prop :=
  c = afl.countsAt buf h i ∧ ExceptFor buf h.idx (h.idx + i) its ∧ its.status ≠ 1

theorem Onward.counts {c : RtnCounts} (onward : afl.Onward buf h i c its) :
    c.count afl.len afl.orig its.buf h i = afl.countsAt buf h (i + 1) := by
  rw [onward.1]
  exact count_congr _ _ (onward.2.1 _ (.inr (Nat.le_refl _)))

theorem may_onward (reached : afl.Reached buf h (i + 1))
    (below : i < afl.rtnItsLen h) (inside : h.idx + afl.rtnItsLen h ≤ afl.len)
    (saved : ∀ k < afl.rtnItsLen h, save k = buf (h.idx + k))
    (fits : RoundFits h afl.len buf save (afl.rtnItsLen h) i
      (afl.countsAt buf h (i + 1))) {c : RtnCounts}
    (onward : afl.Onward buf h i c its) :
    May ItsState.execs
      (fun outcome => (afl.answering outcome).transformRound h save i c)
      its fun step next =>
        ∃ c, step = .yield c ∧ afl.Onward buf h (i + 1) c next := by
  have before : afl.Reached buf h i := fun j less => reached j (by omega)
  have rounds : ∀ outcome, Triple
      (fun its => (c = afl.countsAt buf h i ∧ afl.Reached buf h i) ∧
        ExceptFor buf h.idx (h.idx + i) its)
      ((afl.answering outcome).transformRound h save i c)
      (AfterRoundAt (fun i c its =>
          (c = afl.countsAt buf h i ∧ afl.Reached buf h i) ∧
            ExceptFor buf h.idx (h.idx + i) its)
        (fun i => ExceptFor buf h.idx (h.idx + i)) i)
      (afl.Behind buf) := by
    intro outcome
    have round := @triple_transformRound_fits (afl.answering outcome) buf h save
      i below inside saved
    simp only [answering_countsAt, answering_reached] at round
    exact round (fun _ => fits) c
  have may := (may_transformRound
    (may_transformAttempts_nothing onward.2.2)).triple rounds
    ⟨⟨onward.1, before⟩, onward.2.1⟩
  apply may.ending
  rintro step next ⟨⟨none, isStep⟩, after⟩
  rw [onward.counts, if_neg (by
    rintro (stuck | other | found)
    · exact (reached i (Nat.lt_succ_self i)).1 stuck
    · exact other (reached i (Nat.lt_succ_self i)).2
    · exact none found)] at isStep
  subst isStep
  exact ⟨_, rfl, rfl, after.2, none⟩

/-- Where an attempt of round `i` may leave a byte, so may the loop. -/
theorem may_rounds_left (reached : afl.Reached buf h i) (below : i < afl.rtnItsLen h)
    (inside : h.idx + afl.rtnItsLen h ≤ afl.len)
    (saved : ∀ k < afl.rtnItsLen h, save k = buf (h.idx + k))
    (fits : ∀ j < i, RoundFits h afl.len buf save (afl.rtnItsLen h) j
      (afl.countsAt buf h (j + 1)))
    (attempts : ∀ its : ItsState, its.status ≠ 1 → May ItsState.execs
      (fun outcome => (afl.answering outcome).transformAttempts h save i
        (afl.countsAt buf h (i + 1)))
      its fun _ => FoundWith (h.idx + k) byte) (none : its.status ≠ 1)
    (same : its.buf = buf) :
    May ItsState.execs
      (fun outcome => forFrom ((afl.answering outcome).transformRound h save) 0
        (afl.rtnItsLen h) RtnCounts.zero)
      its fun ended next => ended = i ∧ FoundWith (h.idx + k) byte next := by
  refine May.forFrom_done
    (fun j before c its (onward : afl.Onward buf h j c its) =>
      may_onward (fun m less => reached m (by omega)) (by omega) inside saved
        (fits j before) onward)
    (fun c its onward => ?_) _ 0 (Nat.zero_le i) (by omega) _ its
    ⟨rfl, fun k _ => congrFun same k, none⟩
  have tried := attempts its onward.2.2
  rw [← onward.counts] at tried
  apply (may_transformRound tried).ending
  rintro step next ⟨left, isStep⟩
  rw [if_pos (.inr (.inr left.1))] at isStep
  exact ⟨⟨_, isStep⟩, left⟩

end Rounds

variable {h : RtnArguments}

/-- Whatever the executions come to, and whatever is behind the input, the call
leaves the buffer as it was unless it is aborted, and it does not write anything
behind the input. -/
def CallRestores (afl : ItsEnvironment) (h : RtnArguments) (its : ItsState) :
    Prop :=
  ∀ (outcome : Nat → List (BitVec 8) → ItsOutcome) (buf : Buffer),
    (∀ k < afl.len, buf k = its.buf k) → ∀ ended final,
      ((afl.answering outcome).rtnExtendEncoding h).run { its with buf } =
        (ended, final) →
      (ended = some () → final.buf = buf) ∧ ∀ k ≥ afl.len, final.buf k = buf k

section Same

variable {buf : Buffer} {i : Nat}

theorem countsAt_same (same : ∀ k < afl.len, buf k = its.buf k)
    (inside : h.idx + i ≤ afl.len) :
    afl.countsAt buf h i = afl.countsAt its.buf h i := by
  induction i with
  | zero => rfl
  | succ i induction =>
      rw [countsAt, induction (by omega)]
      exact count_congr _ _ (same _ (by omega))

theorem Reached.same (reached : afl.Reached its.buf h i)
    (same : ∀ k < afl.len, buf k = its.buf k)
    (inside : h.idx + i ≤ afl.len) : afl.Reached buf h i := by
  intro j before
  rw [countsAt_same same (by omega)]
  exact reached j before

theorem saved_same (same : ∀ k < afl.len, buf k = its.buf k)
    (position : h.idx < afl.len) :
    afl.saved h { its with buf } = afl.saved h its := by
  have length := afl.rtnItsLen_le h
  have front := afl.maxTo_le h
  unfold saved
  dsimp only
  congr 1
  · congr 1
    apply Buffer.loadBytes_congr
    intro k below
    apply same
    omega
  · apply Buffer.loadBytes_congr
    intro k below
    apply same
    omega

theorem RoundFits.same {save : Buffer} {itsLen : Nat} {c : RtnCounts}
    (fits : RoundFits h afl.len its.buf save itsLen i c)
    (same : ∀ k < afl.len, buf k = its.buf k) (inside : h.idx + i < afl.len) :
    RoundFits h afl.len buf save itsLen i c := by
  have last := same _ inside
  constructor
  · rw [last]
    exact fits.fromDigits
  · intro writes k tried back
    obtain ⟨within, held⟩ := fits.toDigits writes k tried back
    exact ⟨within, held.trans (same _ within).symm⟩
  · rw [last]
    exact fits.xor
  · rw [last]
    exact fits.arith
  · rw [last]
    exact fits.toupper
  · rw [last]
    exact fits.tolower

theorem RoundsFit.same (fits : afl.RoundsFit h its) (position : h.idx < afl.len)
    (same : ∀ k < afl.len, buf k = its.buf k) :
    afl.RoundsFit h { its with buf } := by
  have length := afl.rtnItsLen_le h
  intro none enabled level i below reached
  have before : afl.Reached its.buf h i :=
    @Reached.same afl { its with buf } h its.buf i reached
      (fun k inside => (same k inside).symm) (by omega)
  rw [saved_same same position]
  change RoundFits h afl.len buf _ _ i (afl.countsAt buf h (i + 1))
  rw [countsAt_same same (by omega)]
  exact (fits none enabled level i below before).same same (by omega)

end Same

section Reaching

variable {buf : Buffer} {i : Nat} (restores : afl.CallRestores h its)
  (position : h.idx < afl.len) (none : its.status ≠ 1)
  (enabled : afl.cmplogEnableTransform = true ∧ afl.lvl &&& lvl3 ≠ 0)
  (comes : afl.Reached its.buf h i) (below : i < afl.rtnItsLen h)
include position none enabled comes below

section

variable
  (fits : ∀ j < i, RoundFits h afl.len its.buf (afl.saved h its)
    (afl.rtnItsLen h) j (afl.countsAt its.buf h (j + 1)))
  (behind : i ≤ k)
  (attempts : ∀ next : ItsState, next.status ≠ 1 → May ItsState.execs
    (fun outcome => (afl.answering outcome).transformAttempts h
      (afl.saved h its) i (afl.countsAt its.buf h (i + 1)))
    next fun _ => FoundWith (h.idx + k) byte)
include fits behind attempts

theorem may_rtnExtendEncoding_left :
    May ItsState.execs
      (fun outcome => (afl.answering outcome).rtnExtendEncoding h) its
      fun _ final => final.buf (h.idx + k) = byte := by
  have length := afl.rtnItsLen_le h
  let maxTo := if afl.lvl &&& lvl3 ≠ 0 then min 4 h.idx else 0
  let from_ := if afl.lvl &&& lvl1 = 0 ∧ maxTo ≠ 0 then 1 else 0
  let save := (afl.unwritten its.execs).storeBytes 0
    (its.buf.loadBytes (h.idx - maxTo) (afl.rtnItsLen h + maxTo))
  have front : maxTo ≤ h.idx := afl.maxTo_le h
  have small : from_ ≤ 1 := ite_le_one _
  have restores : ∀ outcome, Triple (fun later => later.buf = its.buf)
      (forFrom ((afl.answering outcome).prefixRound h save maxTo) from_
        (maxTo + 1 - from_) ())
      (fun _ later => later.buf = its.buf) (afl.Behind its.buf) :=
    fun outcome => @triple_prefixRounds (afl.answering outcome) its.buf h save
      maxTo from_ front small position fun k below => held_storeBytes _ below
  have prefixes := (may_prefixRounds_nothing h save maxTo from_
    (maxTo + 1 - from_) none).triple restores rfl
  apply May.bind
  apply May.get
  apply May.bind
  apply prefixes.ending
  rintro _ next ⟨none, same⟩
  apply May.bind
  apply May.get
  apply May.ite_same fun _ _ => Iff.rfl
  · intro _
    apply May.ite_same fun _ _ => Iff.rfl
    · intro _
      apply May.bind
      apply May.get
      apply May.bind
      have rounds := may_rounds_left comes below (by omega)
        (fun k => held_storeBytes save) fits attempts none same
      rw [same]
      apply rounds.ending
      rintro ended final ⟨isLast, left⟩
      rw [isLast]
      exact may_storeBuf_behind h.idx ((afl.saved h its).loadBytes 0 i) (by
        rw [Buffer.length_loadBytes]
        omega) left.2
    · exact fun fails => absurd enabled (fails default)
  · exact fun fails => absurd none (fails default)

include restores in
/-- What an attempt may leave is what was there, if the call restores it. -/
theorem eq_of_attempts (same : ∀ k < afl.len, buf k = its.buf k) :
    byte = buf (h.idx + k) := by
  have length := afl.rtnItsLen_le h
  have may := @may_rtnExtendEncoding_left byte afl { its with buf } k h i
    position none enabled (comes.same same (by omega)) below
    (fun j before => by
      rw [saved_same same position]
      change RoundFits h afl.len buf _ _ j (afl.countsAt buf h (j + 1))
      rw [countsAt_same same (by omega)]
      exact (fits j before).same same (by omega))
    behind (by
      rw [saved_same same position]
      change ∀ next : ItsState, next.status ≠ 1 → May ItsState.execs
        (fun outcome => (afl.answering outcome).transformAttempts h
          (afl.saved h its) i (afl.countsAt buf h (i + 1)))
        next fun _ => FoundWith (h.idx + k) byte
      rw [countsAt_same same (by omega)]
      exact attempts)
  obtain ⟨outcome, _, final, left, runs⟩ := may.run
  have restored := (restores outcome buf same _ final runs).1 rfl
  rw [← left, restored]

end

include restores in
theorem roundFits_of_callRestores :
    RoundFits h afl.len its.buf (afl.saved h its) (afl.rtnItsLen h) i
      (afl.countsAt its.buf h (i + 1)) := by
  induction i using Nat.strong_induction_on with
  | _ i induction =>
      have left := fun {buf k byte} => @eq_of_attempts byte afl its k h buf i
        restores position none enabled comes below
        (fun j before => induction j before
          (fun m less => comes m (by omega)) (by omega))
      have same : ∀ k < afl.len, its.buf k = its.buf k := fun _ _ => rfl
      constructor
      · intro early digits noDigits noXor
        have inside : i < ((afl.countsAt its.buf h (i + 1)).fromDigits h.repl
            i).length := by
          rw [RtnCounts.fromDigits, List.length_map, List.length_range]
          exact Nat.lt_succ_self i
        have last := List.getElem?_eq_getElem inside
        rw [last]
        exact congrArg some (left (Nat.le_refl i) (fun _ _ =>
          may_left_fromDigits early digits noDigits noXor last) same)
      · intro writes k tried back
        have held := fun {buf} => @left buf k _ (by omega) fun _ none =>
          may_left_toDigits none writes (by omega) back
        refine ⟨?_, held same⟩
        by_contra outside
        let other := Function.update its.buf (h.idx + k)
          (its.buf (h.idx + k) + 1)
        have changed := @held other fun k within =>
          Function.update_of_ne (by omega) _ _
        rw [held same] at changed
        have : its.buf (h.idx + k) = its.buf (h.idx + k) + 1 :=
          changed.trans (Function.update_self ..)
        bv_omega
      · exact fun xor => left (Nat.le_refl i)
          (fun _ none => may_left_xor none xor) same
      · exact fun arith => left (Nat.le_refl i)
          (fun _ none => may_left_arith none arith) same
      · exact fun toupper => left (Nat.le_refl i)
          (fun _ none => may_left_toupper none toupper) same
      · exact fun tolower => left (Nat.le_refl i)
          (fun _ none => may_left_tolower none tolower) same

end Reaching

/-- A call for a position of the input restores the buffer if and only if every
round that can be reached fits. -/
theorem rtnExtendEncoding_restores_iff (afl : ItsEnvironment) (h : RtnArguments)
    (its : ItsState) (position : h.idx < afl.len) :
    afl.CallRestores h its ↔ afl.RoundsFit h its := by
  constructor
  · intro restores none enabled level i below reached
    exact roundFits_of_callRestores restores position none ⟨enabled, level⟩
      reached below
  · intro fits outcome buf same ended final runs
    have all := fits.same position same
    exact rtnExtendEncoding_restores (afl.answering outcome) h { its with buf }
      position (by
        intro none enabled level i below reached
        rw [answering_countsAt]
        exact all none enabled level i below
          ((answering_reached outcome).mp reached)) runs

theorem roundsFit_callCase : (callCase .nothing 0#8).RoundsFit
    (callArguments 3#8 7#8 9#8 1) (callState 1#8) := by
  intro _ _ _ i below _
  cases i with
  | zero =>
      constructor
      · exact fun _ tohex => absurd tohex (by decide)
      · exact fun writes => absurd writes (by decide)
      · exact fun xor => absurd xor (by decide)
      · exact fun arith => absurd arith (by decide)
      · exact fun toupper => absurd toupper (by decide)
      · exact fun tolower => absurd tolower (by decide)
  | succ i =>
      exact absurd (show i + 1 < 1 from below) (by omega)

theorem rtnExtendEncoding_restores_iff_case :
    (callCase .nothing 0#8).CallRestores (callArguments 3#8 7#8 9#8 1)
      (callState 1#8) :=
  (rtnExtendEncoding_restores_iff (callCase .nothing 0#8)
    (callArguments 3#8 7#8 9#8 1) (callState 1#8)
    (show 0 < 5 by decide)).mpr roundsFit_callCase

end ItsEnvironment

end AFLPlusPlus.Redqueen
