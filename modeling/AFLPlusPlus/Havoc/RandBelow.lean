import AFLPlusPlus.Support.Counting
import Mathlib.Data.Int.CardIntervalMod

/-!
# Random numbers below a limit

`rand_below` draws from the generator until a number lies below the greatest
multiple of the limit that fits, and returns its residue.  The generator is
seeded anew from `/dev/urandom` from time to time.
-/

namespace AFLPlusPlus

def reseedRng : BitVec 64 := 100000#64

/-- `rand_seed` -/
structure RandSeed where
  first : BitVec 64
  second : BitVec 64
  third : BitVec 64

/-- What `rand_below` uses of `afl_state_t`. -/
structure RandState where
  randSeed : RandSeed
  randCnt : BitVec 32
  fixedSeed : Bool

namespace RandState

/-- `rand_next`, romuDuoJr. -/
def randNext (afl : RandState) : BitVec 64 × RandState :=
  let xp := afl.randSeed.first
  (xp, { afl with randSeed :=
    { afl.randSeed with
      first := 15241094284759029579#64 * afl.randSeed.second
      second := (afl.randSeed.second - xp).rotateLeft 27 } })

/-- The state before the draws of a call; `urandom` is what `/dev/urandom` would
give. -/
def reseed (urandom : RandSeed) (afl : RandState) : RandState :=
  let last := afl.randCnt = 0#32
  let afl := { afl with randCnt := afl.randCnt - 1#32 }
  if last ∧ afl.fixedSeed = false then
    { afl with
      randSeed := urandom
      randCnt := (reseedRng / 2#64 + urandom.second % reseedRng).setWidth 32 }
  else afl

end RandState

/-- The condition of the loop: draw again. -/
def Redraws (limit : BitVec 64) (unbiasedRnd : BitVec 64) : Prop :=
  BitVec.allOnes 64 - BitVec.allOnes 64 % limit ≤ unbiasedRnd

instance (limit unbiasedRnd : BitVec 64) : Decidable (Redraws limit unbiasedRnd) :=
  inferInstanceAs (Decidable (_ ≤ _))

/-- The loop of `rand_below`, for some draws at most. -/
def drawUnbiased (limit : BitVec 64) : Nat → RandState → Option (BitVec 64 × RandState)
  | 0, _ => none
  | draws + 1, afl =>
      let (unbiasedRnd, afl) := afl.randNext
      if Redraws limit unbiasedRnd then drawUnbiased limit draws afl
      else some (unbiasedRnd, afl)

/-- `rand_below`, for some draws at most. -/
def RandState.randBelow (draws : Nat) (urandom : RandSeed) (limit : BitVec 32)
    (afl : RandState) : Option (BitVec 32 × RandState) :=
  if limit ≤ 1#32 then some (0#32, afl)
  else do
    let (unbiasedRnd, afl) ←
      drawUnbiased (limit.setWidth 64) draws (afl.reseed urandom)
    some ((unbiasedRnd % limit.setWidth 64).setWidth 32, afl)

def RandState.output (afl : RandState) (draw : Nat) : BitVec 64 :=
  (((fun state => state.randNext.2)^[draw]) afl).randNext.1

theorem drawUnbiased_succ (limit : BitVec 64) (draws : Nat)
    (afl : RandState) :
    drawUnbiased limit (draws + 1) afl =
      if Redraws limit afl.randNext.1 then
        drawUnbiased limit draws afl.randNext.2
      else some afl.randNext :=
  rfl

theorem drawUnbiased_eq_find (limit : BitVec 64) (draws : Nat)
    (afl : RandState) :
    (drawUnbiased limit draws afl).map Prod.fst =
      ((List.range draws).map afl.output).find? fun unbiasedRnd =>
        !decide (Redraws limit unbiasedRnd) := by
  induction draws generalizing afl with
  | zero => rfl
  | succ draws induction =>
      have first : afl.output 0 = afl.randNext.1 := rfl
      have later : (List.range draws).map (afl.output ∘ Nat.succ) =
          (List.range draws).map afl.randNext.2.output := rfl
      rw [drawUnbiased_succ, List.range_succ_eq_map, List.map_cons,
        List.map_map, later, first]
      by_cases again : Redraws limit afl.randNext.1
      · rw [if_pos again, induction, List.find?_cons_of_neg (by simp [again])]
      · rw [if_neg again, List.find?_cons_of_pos (by simp [again])]
        rfl

/-- The residue that `rand_below` returns for a number. -/
def residue (limit : BitVec 32) (unbiasedRnd : BitVec 64) : BitVec 32 :=
  (unbiasedRnd % limit.setWidth 64).setWidth 32

section Residues

variable {limit : BitVec 32} (positive : 0 < limit.toNat)
include positive

theorem toNat_residue (unbiasedRnd : BitVec 64) :
    (residue limit unbiasedRnd).toNat = unbiasedRnd.toNat % limit.toNat := by
  have below := Nat.mod_lt unbiasedRnd.toNat positive
  have width := limit.isLt
  rw [residue, BitVec.toNat_setWidth, BitVec.toNat_umod,
    BitVec.toNat_setWidth, Nat.mod_eq_of_lt (a := limit.toNat) (by omega)]
  exact Nat.mod_eq_of_lt (by omega)

theorem not_redraws_iff (unbiasedRnd : BitVec 64) :
    ¬Redraws (limit.setWidth 64) unbiasedRnd ↔
      unbiasedRnd.toNat < limit.toNat * ((2 ^ 64 - 1) / limit.toNat) := by
  have width := limit.isLt
  have whole := Nat.div_add_mod (2 ^ 64 - 1) limit.toNat
  have rest := Nat.mod_lt (2 ^ 64 - 1) positive
  rw [Redraws, BitVec.le_def, BitVec.toNat_sub, BitVec.toNat_umod,
    BitVec.toNat_allOnes, BitVec.toNat_setWidth,
    Nat.mod_eq_of_lt (a := limit.toNat) (by omega)]
  omega

theorem count_residue {value : BitVec 32} (below : value < limit) :
    Nat.count (fun output => ¬Redraws (limit.setWidth 64)
        (BitVec.ofNat 64 output) ∧
          residue limit (BitVec.ofNat 64 output) = value) (2 ^ 64) =
      (2 ^ 64 - 1) / limit.toNat := by
  have whole := Nat.div_add_mod (2 ^ 64 - 1) limit.toNat
  have small : ∀ output < 2 ^ 64,
      (BitVec.ofNat 64 output).toNat = output := fun output inside => by
    rw [BitVec.toNat_ofNat, Nat.mod_eq_of_lt inside]
  have least : value.toNat % limit.toNat = value.toNat := Nat.mod_eq_of_lt below
  have accepted : limit.toNat * ((2 ^ 64 - 1) / limit.toNat) ≤ 2 ^ 64 := by omega
  have residues : ∀ output < limit.toNat * ((2 ^ 64 - 1) / limit.toNat),
      (¬Redraws (limit.setWidth 64) (BitVec.ofNat 64 output) ∧
        residue limit (BitVec.ofNat 64 output) = value ↔
          output ≡ value.toNat [MOD limit.toNat]) := by
    intro output inside
    rw [not_redraws_iff positive, small output (by omega), Nat.ModEq, least,
      ← BitVec.toNat_inj, toNat_residue positive, small output (by omega)]
    exact and_iff_right inside
  rw [Counting.count_extend accepted ?_, Counting.count_congr residues,
    Nat.count_modEq_card _ positive, Nat.mul_div_cancel_left _ positive,
    Nat.mul_mod_right, if_neg (Nat.not_lt_zero _), Nat.add_zero]
  intro output above inside taken
  rw [not_redraws_iff positive, small output inside] at taken
  omega

end Residues

/-- `rand_below` returns the residue of the first number that is not drawn
again, which is below the limit; it does return once there is such a number, and
every residue belongs to as many of these numbers. -/
theorem randBelow_unbiased (limit : BitVec 32) (two : 2#32 ≤ limit) :
    (∀ draws urandom, ∀ afl : RandState,
      (afl.randBelow draws urandom limit).map Prod.fst =
        (((List.range draws).map (afl.reseed urandom).output).find?
          fun unbiasedRnd => !decide (Redraws (limit.setWidth 64)
            unbiasedRnd)).map (residue limit)) ∧
      (∀ unbiasedRnd, residue limit unbiasedRnd < limit) ∧
      ∃ count, 0 < count ∧ ∀ value < limit,
        Nat.count (fun output => ¬Redraws (limit.setWidth 64)
          (BitVec.ofNat 64 output) ∧
            residue limit (BitVec.ofNat 64 output) = value) (2 ^ 64) =
          count := by
  have width := limit.isLt
  have positive : 0 < limit.toNat := by bv_omega
  refine ⟨?_, ?_, _, Nat.div_pos (by omega) positive, fun value below =>
    count_residue positive below⟩
  · intro draws urandom afl
    have large : ¬limit ≤ 1#32 := by bv_omega
    rw [RandState.randBelow, if_neg large, ← drawUnbiased_eq_find]
    cases drawUnbiased (limit.setWidth 64) draws (afl.reseed urandom) with
    | none => rfl
    | some drawn => rfl
  · intro unbiasedRnd
    rw [BitVec.lt_def, toNat_residue positive]
    exact Nat.mod_lt _ positive

theorem randBelow_unbiased_three :
    2#32 ≤ 3#32 ∧ ∀ unbiasedRnd, residue 3#32 unbiasedRnd < 3#32 :=
  ⟨by decide, (randBelow_unbiased 3#32 (by decide)).2.1⟩

end AFLPlusPlus
