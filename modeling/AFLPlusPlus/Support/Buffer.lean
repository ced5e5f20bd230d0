import AFLPlusPlus.Support.ByteWord

/-!
# Byte buffers read and written as words

A buffer is a total map from addresses to bytes; what a program may touch is
bounded by the loops that walk it.  `loadWord` and `storeWord` are the two
accesses through a pointer to words of `width` bytes.
-/

abbrev Buffer := Nat → BitVec 8

namespace Buffer

open ByteWord

variable {width : Nat}

/-- The word of `width` bytes that starts at `address`. -/
def loadAt (width : Nat) (memory : Buffer) (address : Nat) : BitVec (8 * width) :=
  ofBytes width fun offset => memory (address + offset)

/-- Word number `index` of a buffer seen as an array of words. -/
def loadWord (width : Nat) (memory : Buffer) (index : Nat) : BitVec (8 * width) :=
  loadAt width memory (width * index)

/-- Overwrite word number `index` of a buffer seen as an array of words. -/
def storeWord (width : Nat) (memory : Buffer) (index : Nat)
    (word : BitVec (8 * width)) : Buffer :=
  fun address =>
    if address / width = index then byte word (address % width)
    else memory address

variable (memory : Buffer) (index : Nat)

variable {address offset : Nat}

@[simp] theorem byte_loadAt (address : Nat) (inside : offset < width) :
    byte (loadAt width memory address) offset = memory (address + offset) := by
  simp [loadAt, inside]

@[simp] theorem byte_loadWord (inside : offset < width) :
    byte (loadWord width memory index) offset = memory (width * index + offset) := by
  simp [loadWord, inside]

theorem lane_loadAt (width : Nat) {wide : Nat} (memory : Buffer) (address : Nat) {lane : Nat}
    (inside : width * (lane + 1) ≤ wide) :
    (loadAt wide memory address).extractLsb' (8 * width * lane) (8 * width) =
      loadAt width memory (address + width * lane) := by
  apply eq_of_bytes
  intro offset offsetInside
  have wideInside : width * lane + offset < wide := by
    rw [Nat.mul_succ] at inside
    omega
  rw [byte_loadAt _ _ offsetInside, Nat.add_assoc,
    ← byte_loadAt memory address wideInside]
  apply BitVec.eq_of_getElem_eq
  intro bit bitInside
  have bounded : 8 * offset + bit < 8 * width := by omega
  have position : 8 * width * lane + (8 * offset + bit) =
      8 * (width * lane + offset) + bit := by
    rw [Nat.mul_add, Nat.mul_assoc]
    omega
  simp [bounded, position]

theorem loadWord_ne_zero_iff :
    loadWord width memory index ≠ 0#(8 * width) ↔
      ∃ offset < width, memory (width * index + offset) ≠ 0#8 := by
  rw [ne_zero_iff]
  constructor
  · rintro ⟨offset, inside, nonzero⟩
    exact ⟨offset, inside, by simpa [inside] using nonzero⟩
  · rintro ⟨offset, inside, nonzero⟩
    exact ⟨offset, inside, by simpa [inside] using nonzero⟩

theorem address_split {index : Nat} (positive : 0 < width) :
    address / width = index ↔ ∃ offset < width, address = width * index + offset := by
  constructor
  · rintro rfl
    exact ⟨address % width, Nat.mod_lt _ positive,
      (Nat.div_add_mod address width).symm⟩
  · rintro ⟨offset, inside, rfl⟩
    rw [Nat.mul_add_div positive, Nat.div_eq_of_lt inside, Nat.add_zero]

theorem address_range (address index : Nat) (positive : 0 < width) :
    address / width = index ↔
      width * index ≤ address ∧ address < width * (index + 1) := by
  rw [Nat.div_eq_iff positive, Nat.mul_comm width, Nat.mul_comm width, Nat.succ_mul]
  omega

theorem storeWord_inside (word : BitVec (8 * width)) (inside : offset < width) :
    storeWord width memory index word (width * index + offset) = byte word offset := by
  have positive : 0 < width := by omega
  have quotient : (width * index + offset) / width = index :=
    (address_split positive).mpr ⟨offset, inside, rfl⟩
  have remainder : (width * index + offset) % width = offset := by
    rw [Nat.mul_add_mod, Nat.mod_eq_of_lt inside]
  simp [storeWord, quotient, remainder]

theorem storeWord_outside (word : BitVec (8 * width))
    (outside : address / width ≠ index) :
    storeWord width memory index word address = memory address := by
  simp [storeWord, outside]

/-- Overwriting a word with a bytewise image of itself changes exactly the
bytes of that word. -/
theorem storeWord_bytewise (word : BitVec (8 * width)) (image : Nat → BitVec 8)
    (positive : 0 < width) (bytes : ∀ offset < width,
      byte word offset = image (width * index + offset)) (address : Nat) :
    storeWord width memory index word address =
      if address / width = index then image address else memory address := by
  by_cases inside : address / width = index
  · obtain ⟨offset, offsetInside, rfl⟩ := (address_split positive).mp inside
    rw [storeWord_inside memory index word offsetInside, if_pos inside,
      bytes offset offsetInside]
  · rw [storeWord_outside memory index word inside, if_neg inside]

end Buffer
