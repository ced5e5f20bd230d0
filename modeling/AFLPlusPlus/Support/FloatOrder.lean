import AFLPlusPlus.Support.FloatFormat

/-!
# The order of floating-point numbers

Without their signs the numbers of a format are ordered like their exponent
and fraction fields, read as one number.  With the sign this number orders all
of them, and the two zeros are the same.
-/

namespace FloatFormat

/-- The exponent and the fraction field, read as one number. -/
def rank (format : FloatFormat) (bits : BitVec format.size) : Nat :=
  format.exponent bits * 2 ^ format.fractionBits + format.fraction bits

def signed (negative : Bool) (amount : Nat) : Int :=
  if negative = true then -amount else amount

def signedRank (format : FloatFormat) (bits : BitVec format.size) : Int :=
  signed (format.negative bits) (format.rank bits)

def Number (format : FloatFormat) (bits : BitVec format.size) : Prop :=
  format.value bits ≠ .nan

def IsZero (format : FloatFormat) (bits : BitVec format.size) : Prop :=
  format.exponent bits = 0 ∧ format.fraction bits = 0

def topRank (format : FloatFormat) : Nat :=
  (2 ^ format.exponentBits - 1) * 2 ^ format.fractionBits

variable {format : FloatFormat} {first second : BitVec format.size}

theorem fraction_lt (bits : BitVec format.size) :
    format.fraction bits < 2 ^ format.fractionBits :=
  Nat.mod_lt _ (Nat.two_pow_pos _)

theorem exponent_lt (bits : BitVec format.size) :
    format.exponent bits < 2 ^ format.exponentBits :=
  Nat.mod_lt _ (Nat.two_pow_pos _)

theorem rank_lt_of_exponent
    (less : format.exponent first < format.exponent second) :
    format.rank first < format.rank second := by
  have small := fraction_lt first
  have next : (format.exponent first + 1) * 2 ^ format.fractionBits ≤
      format.exponent second * 2 ^ format.fractionBits :=
    Nat.mul_le_mul_right _ less
  rw [Nat.succ_mul] at next
  unfold rank
  omega

variable {bits : BitVec format.size}

theorem rank_eq_zero : format.rank bits = 0 ↔ format.IsZero bits := by
  have positive := Nat.two_pow_pos format.fractionBits
  rw [rank, IsZero, Nat.add_eq_zero_iff, Nat.mul_eq_zero]
  constructor
  · intro zero
    exact ⟨zero.1.resolve_right (Nat.ne_of_gt positive), zero.2⟩
  · intro zero
    exact ⟨.inl zero.1, zero.2⟩

/-- The exponents decide the order of the ranks, and the fractions do if these
are the same. -/
theorem rank_lt_iff :
    format.rank first < format.rank second ↔
      format.exponent first < format.exponent second ∨
        format.exponent first = format.exponent second ∧
          format.fraction first < format.fraction second := by
  constructor
  · intro less
    rcases Nat.lt_trichotomy (format.exponent first)
      (format.exponent second) with below | same | above
    · exact .inl below
    · refine .inr ⟨same, ?_⟩
      rw [rank, rank, same] at less
      omega
    · have more := rank_lt_of_exponent above
      omega
  · intro fields
    rcases fields with below | ⟨same, below⟩
    · exact rank_lt_of_exponent below
    · rw [rank, rank, same]
      omega

theorem rank_eq_iff :
    format.rank first = format.rank second ↔
      format.exponent first = format.exponent second ∧
        format.fraction first = format.fraction second := by
  constructor
  · intro same
    have notLess := mt rank_lt_iff.mpr (Nat.not_lt_of_ge same.ge)
    have notMore := mt rank_lt_iff.mpr (Nat.not_lt_of_ge same.le)
    omega
  · intro fields
    rw [rank, rank, fields.1, fields.2]

theorem magnitude_lt_of_exponent
    (less : format.exponent first < format.exponent second) :
    format.magnitude first < format.magnitude second := by
  have small := fraction_lt first
  have nonzero : format.exponent second ≠ 0 := by omega
  have atLeast : 2 ^ format.fractionBits * 2 ^ (format.exponent second - 1) ≤
      format.magnitude second := by
    rw [magnitude, if_neg nonzero]
    exact Nat.mul_le_mul_right _ (Nat.le_add_right _ _)
  refine Nat.lt_of_lt_of_le ?_ atLeast
  unfold magnitude
  split
  · exact Nat.lt_of_lt_of_le small
      (Nat.le_mul_of_pos_right _ (Nat.two_pow_pos _))
  · rename_i normal
    calc (2 ^ format.fractionBits + format.fraction first) *
          2 ^ (format.exponent first - 1)
        < 2 ^ format.fractionBits * 2 * 2 ^ (format.exponent first - 1) :=
          Nat.mul_lt_mul_of_pos_right (by omega) (Nat.two_pow_pos _)
      _ = 2 ^ format.fractionBits * 2 ^ (format.exponent first - 1 + 1) := by
          rw [Nat.mul_assoc, Nat.pow_succ, Nat.mul_comm 2]
      _ ≤ 2 ^ format.fractionBits * 2 ^ (format.exponent second - 1) :=
          Nat.mul_le_mul_left _ (Nat.pow_le_pow_right Nat.zero_lt_two (by omega))

theorem magnitude_lt (less : format.rank first < format.rank second) :
    format.magnitude first < format.magnitude second := by
  rcases rank_lt_iff.mp less with below | ⟨same, below⟩
  · exact magnitude_lt_of_exponent below
  · rw [magnitude, magnitude, same]
    split
    · exact below
    · exact Nat.mul_lt_mul_of_pos_right (by omega) (Nat.two_pow_pos _)

theorem magnitude_eq (same : format.rank first = format.rank second) :
    format.magnitude first = format.magnitude second := by
  obtain ⟨exponents, fractions⟩ := rank_eq_iff.mp same
  rw [magnitude, magnitude, exponents, fractions]

theorem magnitude_eq_zero : format.magnitude bits = 0 ↔ format.rank bits = 0 := by
  have positive := Nat.two_pow_pos format.fractionBits
  rw [rank_eq_zero]
  unfold IsZero magnitude
  split
  · rename_i subnormal
    simp only [subnormal, true_and]
  · rename_i normal
    simp only [normal, false_and, iff_false]
    exact Nat.ne_of_gt (Nat.mul_pos (by omega) (Nat.two_pow_pos _))

/-- A number is infinity with the largest rank, or finite. -/
theorem Number.value_cases (number : format.Number bits) :
    (format.value bits = .infinity (format.negative bits) ∧
      format.rank bits = format.topRank) ∨
    (format.value bits =
        .finite (signed (format.negative bits) (format.magnitude bits)) ∧
      format.rank bits < format.topRank) := by
  have below := exponent_lt bits
  have small := fraction_lt bits
  unfold Number value at number
  unfold value
  split at number
  · rename_i largest
    split at number
    · rename_i zero
      refine .inl ⟨by rw [if_pos largest, if_pos zero], ?_⟩
      rw [rank, topRank, zero, ← largest]
      rfl
    · exact absurd rfl number
  · rename_i notLargest
    refine .inr ⟨?_, ?_⟩
    · rw [if_neg notLargest, signed]
      split
      · rfl
      · rfl
    · have next : (format.exponent bits + 1) * 2 ^ format.fractionBits ≤
          format.topRank := Nat.mul_le_mul_right _ (by omega)
      rw [Nat.succ_mul] at next
      unfold rank
      omega

theorem orderUnits_magnitude (negative negative' : Bool) :
    FloatValue.orderUnits (signed negative (format.magnitude first))
        (signed negative' (format.magnitude second)) =
      FloatValue.orderUnits (signed negative (format.rank first))
        (signed negative' (format.rank second)) := by
  have zero : format.magnitude first = 0 ↔ format.rank first = 0 := magnitude_eq_zero
  have zero' : format.magnitude second = 0 ↔ format.rank second = 0 :=
    magnitude_eq_zero
  have order : (format.rank first < format.rank second ∧
        format.magnitude first < format.magnitude second) ∨
      (format.rank first = format.rank second ∧
        format.magnitude first = format.magnitude second) ∨
      (format.rank second < format.rank first ∧
        format.magnitude second < format.magnitude first) := by
    rcases Nat.lt_trichotomy (format.rank first) (format.rank second) with
      less | same | more
    · exact .inl ⟨less, magnitude_lt less⟩
    · exact .inr (.inl ⟨same, magnitude_eq same⟩)
    · exact .inr (.inr ⟨more, magnitude_lt more⟩)
  unfold FloatValue.orderUnits signed
  grind

theorem compare_value (wide : 0 < format.exponentBits)
    (number : format.Number first) (number' : format.Number second) :
    (format.value first).compare (format.value second) =
      some (FloatValue.orderUnits (format.signedRank first)
        (format.signedRank second)) := by
  have top : 0 < format.topRank :=
    Nat.mul_pos (Nat.sub_pos_of_lt (Nat.one_lt_two_pow (by omega)))
      (Nat.two_pow_pos _)
  unfold signedRank
  rcases number.value_cases with ⟨value, rank⟩ | ⟨value, rank⟩
  · rcases number'.value_cases with ⟨value', rank'⟩ | ⟨value', rank'⟩
    · rw [value, value', rank, rank']
      unfold FloatValue.orderUnits signed
      cases format.negative first <;> cases format.negative second <;>
        simp only [FloatValue.compare] <;> grind
    · rw [value, value', rank]
      unfold FloatValue.orderUnits signed
      cases format.negative first <;> simp only [FloatValue.compare] <;> grind
  · rcases number'.value_cases with ⟨value', rank'⟩ | ⟨value', rank'⟩
    · rw [value, value', rank']
      unfold FloatValue.orderUnits signed
      cases format.negative second <;> simp only [FloatValue.compare] <;> grind
    · rw [value, value', ← orderUnits_magnitude]
      rfl

end FloatFormat
