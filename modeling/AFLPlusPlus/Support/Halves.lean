import Mathlib.Algebra.Order.Ring.Nat

/-!
# Halves and sign bits

An order between two numbers of even width is decided by their upper halves,
and by their lower halves if the upper ones are the same.  A signed order is
decided by the sign bits, and by the unsigned order if these are the same.
-/

section Halves

variable {width : Nat}

def highHalf (value : BitVec width) : BitVec (width / 2) :=
  (value >>> (width / 2)).setWidth (width / 2)

def lowHalf (value : BitVec width) : BitVec (width / 2) := value.setWidth (width / 2)

variable (even : width / 2 + width / 2 = width)
include even

theorem toNat_highHalf (value : BitVec width) :
    (highHalf value).toNat = value.toNat / 2 ^ (width / 2) := by
  have small : value.toNat / 2 ^ (width / 2) < 2 ^ (width / 2) := by
    apply Nat.div_lt_of_lt_mul
    rw [← Nat.pow_add, even]
    exact value.isLt
  rw [highHalf, BitVec.toNat_setWidth, BitVec.toNat_ushiftRight,
    Nat.shiftRight_eq_div_pow, Nat.mod_eq_of_lt small]

omit even in
theorem toNat_lowHalf (value : BitVec width) :
    (lowHalf value).toNat = value.toNat % 2 ^ (width / 2) :=
  BitVec.toNat_setWidth _ _

theorem toNat_halves (value : BitVec width) :
    value.toNat = 2 ^ (width / 2) * (highHalf value).toNat +
      (lowHalf value).toNat := by
  rw [toNat_highHalf even, toNat_lowHalf]
  exact (Nat.div_add_mod _ _).symm

theorem eq_iff_halves (first second : BitVec width) :
    first = second ↔
      highHalf first = highHalf second ∧ lowHalf first = lowHalf second := by
  constructor
  · intro same
    rw [same]
    exact ⟨rfl, rfl⟩
  · intro same
    apply BitVec.eq_of_toNat_eq
    rw [toNat_halves even first, toNat_halves even second, same.1, same.2]

theorem lt_iff_halves (first second : BitVec width) :
    first < second ↔
      highHalf first < highHalf second ∨
        highHalf first = highHalf second ∧ lowHalf first < lowHalf second := by
  have firstLow := (lowHalf first).isLt
  have secondLow := (lowHalf second).isLt
  rw [BitVec.lt_def, BitVec.lt_def, BitVec.lt_def, ← BitVec.toNat_inj,
    toNat_halves even first, toNat_halves even second]
  generalize 2 ^ (width / 2) = base at *
  generalize (highHalf first).toNat = high, (highHalf second).toNat = high'
  constructor
  · intro less
    rcases Nat.lt_trichotomy high high' with below | same | above
    · exact .inl below
    · subst same
      exact .inr ⟨rfl, Nat.lt_of_add_lt_add_left less⟩
    · have bound := Nat.mul_le_mul_left base (Nat.succ_le_of_lt above)
      rw [Nat.mul_succ] at bound
      omega
  · rintro (below | ⟨rfl, less⟩)
    · have bound := Nat.mul_le_mul_left base (Nat.succ_le_of_lt below)
      rw [Nat.mul_succ] at bound
      omega
    · exact Nat.add_lt_add_left less _

end Halves

theorem setWidth_shift_eq_msb {width : Nat} (value : BitVec width) :
    (value >>> (width - 1)).setWidth 1 = BitVec.ofBool value.msb := by
  apply BitVec.eq_of_getLsbD_eq
  intro index inside
  obtain rfl : index = 0 := by omega
  simp only [BitVec.getLsbD_setWidth, BitVec.getLsbD_ushiftRight, inside,
    decide_true, Bool.true_and, Nat.add_zero, BitVec.msb_eq_getLsbD_last,
    BitVec.getLsbD_ofBool]

theorem slt_of_msb_eq {width : Nat} {first second : BitVec width}
    (same : first.msb = second.msb) :
    first.slt second = decide (first < second) := by
  rw [BitVec.slt_eq_ult_of_msb_eq same, BitVec.ult_eq_decide]
  rfl

theorem slt_of_msb_ne {width : Nat} {first second : BitVec width}
    (different : first.msb ≠ second.msb) : first.slt second = first.msb := by
  rw [BitVec.slt_eq_not_ult_of_msb_neq different,
    BitVec.ult_eq_msb_of_msb_neq different]
  exact (Bool.eq_not.mpr different).symm
