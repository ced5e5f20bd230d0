import AFLPlusPlus.Support.Buffer

/-!
# Words written anywhere in a buffer

A write at any address, aligned or not, and what a sequence of writes to the
same few bytes leaves.
-/

namespace Buffer

open ByteWord

variable {width : Nat}

/-- Overwrite the `width` bytes from `address` on. -/
def storeAt (width : Nat) (memory : Buffer) (address : Nat)
    (word : BitVec (8 * width)) : Buffer :=
  fun other =>
    if address ≤ other ∧ other < address + width then
      byte word (other - address)
    else memory other

variable (memory : Buffer) (address : Nat)

theorem storeAt_inside (word : BitVec (8 * width)) {offset : Nat}
    (inside : offset < width) :
    storeAt width memory address word (address + offset) = byte word offset := by
  rw [storeAt, if_pos (by omega), Nat.add_sub_cancel_left]

theorem storeAt_outside (word : BitVec (8 * width)) {other : Nat}
    (outside : ¬ (address ≤ other ∧ other < address + width)) :
    storeAt width memory address word other = memory other :=
  if_neg outside

theorem ext_window (width address : Nat) {first second : Buffer}
    (inside : ∀ offset < width, first (address + offset) = second (address + offset))
    (outside : ∀ other, ¬ (address ≤ other ∧ other < address + width) →
      first other = second other) : first = second := by
  funext other
  by_cases isInside : address ≤ other ∧ other < address + width
  · have position : address + (other - address) = other := by omega
    rw [← position]
    exact inside (other - address) (by omega)
  · exact outside other isInside

theorem storeAt_storeAt (first second : BitVec (8 * width)) :
    storeAt width (storeAt width memory address first) address second =
      storeAt width memory address second := by
  apply ext_window width address
  · intro offset inside
    rw [storeAt_inside _ _ _ inside, storeAt_inside _ _ _ inside]
  · intro other outside
    rw [storeAt_outside _ _ _ outside, storeAt_outside _ _ _ outside,
      storeAt_outside _ _ _ outside]

theorem storeAt_loadAt :
    storeAt width memory address (loadAt width memory address) = memory := by
  apply ext_window width address
  · intro offset inside
    rw [storeAt_inside _ _ _ inside, byte_loadAt _ _ inside]
  · intro other outside
    exact storeAt_outside _ _ _ outside

/-- A write that changes some bytes only is a write of these bytes. -/
theorem storeAt_narrow {narrow : Nat} (start : Nat) (word : BitVec (8 * width))
    (part : BitVec (8 * narrow)) (fits : start + narrow ≤ width)
    (changed : ∀ offset < narrow, byte word (start + offset) = byte part offset)
    (kept : ∀ offset < width, ¬ (start ≤ offset ∧ offset < start + narrow) →
      byte word offset = memory (address + offset)) :
    storeAt width memory address word =
      storeAt narrow memory (address + start) part := by
  apply ext_window width address
  · intro offset inside
    rw [storeAt_inside _ _ _ inside]
    by_cases isPart : start ≤ offset ∧ offset < start + narrow
    · have position : address + offset = address + start + (offset - start) := by omega
      have part_ := changed (offset - start) (by omega)
      rw [Nat.add_sub_cancel' isPart.1] at part_
      rw [position, storeAt_inside _ _ _ (by omega), part_]
    · rw [storeAt_outside _ _ _ (by omega), kept offset inside isPart]
  · intro other outside
    rw [storeAt_outside _ _ _ outside, storeAt_outside _ _ _ (by omega)]

theorem byte_single (word : BitVec (8 * 1)) {offset : Nat}
    (inside : offset < 1) : byte word offset = word := by
  have zero : offset = 0 := by omega
  subst zero
  exact BitVec.extractLsb'_eq_self

theorem loadAt_one : loadAt 1 memory address = memory address := by
  rw [← byte_single (loadAt 1 memory address) Nat.one_pos,
    byte_loadAt _ _ Nat.one_pos, Nat.add_zero]

theorem byte_half (word : BitVec (8 * width)) (index : Nat) {offset : Nat}
    (inside : offset < 2) :
    @byte 2 (half word index) offset = byte word (2 * index + offset) := by
  have offsets : offset = 0 ∨ offset = 1 := by omega
  rcases offsets with rfl | rfl
  · exact half_low word index
  · exact half_high word index

theorem loadAt_half {index : Nat} (inside : 2 * index + 2 ≤ width) :
    loadAt 2 memory (address + 2 * index) =
      half (loadAt width memory address) index := by
  apply @eq_of_bytes 2
  intro offset offsetInside
  rw [byte_half _ _ offsetInside, byte_loadAt _ _ offsetInside,
    byte_loadAt _ _ (by omega), Nat.add_assoc]

end Buffer
