import AFLPlusPlus.Support.Buffer

/-!
# Stores of byte sequences

What a memory holds from an address on, and what a store of some bytes leaves
of it.
-/

namespace Buffer

def storeBytes (memory : Buffer) (address : Nat) (bytes : List (BitVec 8)) :
    Buffer := fun here =>
  if address ≤ here then (bytes[here - address]?).getD (memory here)
  else memory here

def loadBytes (memory : Buffer) (address len : Nat) : List (BitVec 8) :=
  (List.range len).map fun i => memory (address + i)

/-- The bytes of a word as they stand in memory. -/
def wordBytes (width : Nat) (word : BitVec (8 * width)) : List (BitVec 8) :=
  (List.range width).map (ByteWord.byte word)

/-- The memory holds these bytes from an address on. -/
def Spells (memory : Buffer) (address : Nat) (bytes : List (BitVec 8)) :
    Prop :=
  ∀ i byte, bytes[i]? = some byte → memory (address + i) = byte

def Apart (address len other otherLen : Nat) : Prop :=
  address + len ≤ other ∨ other + otherLen ≤ address

instance (address len other otherLen : Nat) :
    Decidable (Apart address len other otherLen) :=
  inferInstanceAs (Decidable (_ ∨ _))

variable {memory : Buffer} {address : Nat} {bytes : List (BitVec 8)}

theorem spells_loadBytes (memory : Buffer) (address len : Nat) :
    Spells memory address (loadBytes memory address len) := by
  intro i byte found
  rw [loadBytes, List.getElem?_map, Option.map_eq_some_iff] at found
  obtain ⟨index, inside, rfl⟩ := found
  rw [List.getElem?_range (by
    by_contra outside
    rw [List.getElem?_eq_none (by simpa using outside)] at inside
    cases inside)] at inside
  rw [Option.some.inj inside]

@[simp] theorem length_loadBytes (memory : Buffer) (address len : Nat) :
    (loadBytes memory address len).length = len := by
  rw [loadBytes, List.length_map, List.length_range]

theorem loadBytes_prefix (memory : Buffer) (address : Nat) {len longer : Nat}
    (shorter : len ≤ longer) :
    loadBytes memory address len <+: loadBytes memory address longer := by
  obtain ⟨rest, rfl⟩ := Nat.exists_eq_add_of_le shorter
  rw [loadBytes, loadBytes, List.range_add, List.map_append]
  exact List.prefix_append _ _

theorem Spells.shorter {shorter : List (BitVec 8)}
    (spells : Spells memory address bytes) (starts : shorter <+: bytes) :
    Spells memory address shorter := by
  obtain ⟨rest, rfl⟩ := starts
  intro i byte found
  exact spells i byte (List.getElem?_append_left
    (List.getElem?_eq_some_iff.mp found).1 ▸ found)

theorem Spells.drop (spells : Spells memory address bytes) (offset : Nat) :
    Spells memory (address + offset) (bytes.drop offset) := by
  intro i byte found
  rw [List.getElem?_drop] at found
  rw [Nat.add_assoc]
  exact spells (offset + i) byte found

theorem spells_storeBytes (memory : Buffer) (address : Nat)
    (bytes : List (BitVec 8)) :
    Spells (storeBytes memory address bytes) address bytes := by
  intro i byte found
  rw [storeBytes, if_pos (Nat.le_add_right _ _), Nat.add_sub_cancel_left, found]
  rfl

theorem Spells.storeBytes (spells : Spells memory address bytes)
    {other : Nat} {stored : List (BitVec 8)}
    (apart : Apart address bytes.length other stored.length) :
    Spells (memory.storeBytes other stored) address bytes := by
  intro i byte found
  have inside := (List.getElem?_eq_some_iff.mp found).1
  rw [Buffer.storeBytes]
  split
  · rw [List.getElem?_eq_none (by
      unfold Apart at apart
      omega)]
    exact spells i byte found
  · exact spells i byte found

theorem Spells.storeBytes_next (spells : Spells memory address bytes)
    (stored : List (BitVec 8)) :
    Spells (memory.storeBytes (address + bytes.length) stored) address
      (bytes ++ stored) := by
  intro i byte found
  by_cases inside : i < bytes.length
  · rw [List.getElem?_append_left inside] at found
    rw [Buffer.storeBytes, if_neg (by omega)]
    exact spells i byte found
  · rw [List.getElem?_append_right (Nat.le_of_not_lt inside)] at found
    rw [Buffer.storeBytes, if_pos (by omega),
      show address + i - (address + bytes.length) = i - bytes.length by omega,
      found]
    rfl

theorem Spells.loadBytes_eq (spells : Spells memory address bytes) :
    memory.loadBytes address bytes.length = bytes := by
  apply List.ext_getElem (length_loadBytes _ _ _)
  intro i inside inside'
  have found := spells i bytes[i] (List.getElem?_eq_getElem inside')
  simpa [loadBytes] using found

theorem loadBytes_eq_iff :
    memory.loadBytes address bytes.length = bytes ↔ Spells memory address bytes := by
  refine ⟨fun loaded => ?_, fun spells => spells.loadBytes_eq⟩
  have spells := spells_loadBytes memory address bytes.length
  rwa [loaded] at spells

theorem some_storeBytes (memory : Buffer) (address i : Nat)
    (bytes : List (BitVec 8)) :
    some (memory.storeBytes address bytes (address + i)) =
      if i < bytes.length then bytes[i]? else some (memory (address + i)) := by
  rw [Buffer.storeBytes, if_pos (Nat.le_add_right _ _), Nat.add_sub_cancel_left]
  split
  · rename_i inside
    rw [List.getElem?_eq_getElem inside]
    rfl
  · rename_i outside
    rw [List.getElem?_eq_none (Nat.le_of_not_lt outside)]
    rfl

theorem take_loadBytes (memory : Buffer) (address : Nat) {len shorter : Nat}
    (inside : shorter ≤ len) :
    (memory.loadBytes address len).take shorter =
      memory.loadBytes address shorter := by
  rw [loadBytes, ← List.map_take, List.take_range, Nat.min_eq_left inside]
  rfl

theorem drop_loadBytes (memory : Buffer) (address len skipped : Nat) :
    (memory.loadBytes address len).drop skipped =
      memory.loadBytes (address + skipped) (len - skipped) := by
  apply List.ext_getElem (by simp)
  intro i inside inside'
  simp [loadBytes, Nat.add_assoc]

theorem loadBytes_storeBytes_end (memory : Buffer) (address : Nat)
    (bytes : List (BitVec 8)) :
    (memory.storeBytes address bytes).loadBytes 0 (address + bytes.length) =
      memory.loadBytes 0 address ++ bytes := by
  have before : Spells (memory.storeBytes address bytes) 0
      (memory.loadBytes 0 address) :=
    (spells_loadBytes memory 0 address).storeBytes (by
      rw [length_loadBytes]
      exact .inl (Nat.le_of_eq (Nat.zero_add _)))
  have both : Spells (memory.storeBytes address bytes) 0
      (memory.loadBytes 0 address ++ bytes) := by
    intro i byte found
    by_cases inside : i < address
    · rw [List.getElem?_append_left (by simpa using inside)] at found
      exact before i byte found
    · rw [List.getElem?_append_right (by simpa using inside),
        length_loadBytes] at found
      have here := spells_storeBytes memory address bytes (i - address) byte
        found
      rwa [Nat.add_sub_of_le (Nat.le_of_not_lt inside), ← Nat.zero_add i] at here
  have loaded := both.loadBytes_eq
  rwa [List.length_append, length_loadBytes] at loaded

theorem storeBytes_head (memory : Buffer) (address : Nat)
    (first other : BitVec 8) (rest : List (BitVec 8)) :
    (memory.storeBytes address (first :: rest)).storeBytes address [other] =
      memory.storeBytes address (other :: rest) := by
  funext here
  rw [storeBytes, storeBytes, storeBytes]
  by_cases behind : address ≤ here
  · rw [if_pos behind, if_pos behind, if_pos behind]
    cases here - address with
    | zero => rfl
    | succ offset => rfl
  · rw [if_neg behind, if_neg behind, if_neg behind]

theorem loadBytes_storeBytes_before (memory : Buffer) (address : Nat)
    (bytes : List (BitVec 8)) :
    (memory.storeBytes address bytes).loadBytes 0 address =
      memory.loadBytes 0 address := by
  apply List.map_congr_left
  intro i inside
  have before := List.mem_range.mp inside
  rw [Nat.zero_add, storeBytes, if_neg (Nat.not_le.mpr before)]

theorem loadBytes_congr {memory other : Buffer} {address len : Nat}
    (same : ∀ i < len, memory (address + i) = other (address + i)) :
    memory.loadBytes address len = other.loadBytes address len := by
  apply List.map_congr_left
  intro i member
  exact same i (List.mem_range.mp member)

theorem loadBytes_append (memory : Buffer) (address len more : Nat) :
    memory.loadBytes address (len + more) =
      memory.loadBytes address len ++ memory.loadBytes (address + len) more := by
  rw [loadBytes, List.range_add, List.map_append, List.map_map]
  congr 1
  apply List.map_congr_left
  intro i _
  exact congrArg memory (Nat.add_assoc address len i).symm

theorem storeBytes_outside (memory : Buffer) {address : Nat}
    {bytes : List (BitVec 8)} {here : Nat}
    (outside : here < address ∨ address + bytes.length ≤ here) :
    memory.storeBytes address bytes here = memory here := by
  rw [storeBytes]
  split
  · rw [List.getElem?_eq_none (by omega)]
    rfl
  · rfl

@[simp] theorem length_wordBytes (width : Nat) (word : BitVec (8 * width)) :
    (wordBytes width word).length = width := by
  rw [wordBytes, List.length_map, List.length_range]

theorem Spells.loadAt_eq {width : Nat} {word : BitVec (8 * width)}
    (spells : Spells memory address (wordBytes width word)) :
    memory.loadAt width address = word := by
  apply ByteWord.eq_of_bytes
  intro index inside
  rw [byte_loadAt _ _ inside]
  exact spells index (ByteWord.byte word index) (by simp [wordBytes, inside])

end Buffer
