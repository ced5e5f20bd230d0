import AFLPlusPlus.Support.Regions

/-!
# Strings in memory

Accesses to blocks of memory that fail outside of the block.  A string in a
block of characters goes up to the next NUL.
-/

/-- What may go wrong with memory, a loop that does not end, and a program that
ends itself. -/
inductive MemoryFault where
  | outOfBounds
  | endless
  | aborted
  deriving DecidableEq

def nul : Char := Char.ofNat 0

namespace CMemory

section Elements

variable {α : Type}

def load (memory : List α) (pos : Nat) : Except MemoryFault α :=
  match memory[pos]? with
  | none => .error .outOfBounds
  | some value => .ok value

def store (memory : List α) (pos : Nat) (value : α) : Except MemoryFault (List α) :=
  if pos < memory.length then .ok (memory.set pos value)
  else .error .outOfBounds

/-- `memcpy` between two blocks. -/
def memcpy (dst : List α) (dstPos : Nat) (src : List α) (srcPos len : Nat) :
    Except MemoryFault (List α) :=
  match Region.memcpy dst dstPos src srcPos len with
  | none => .error .outOfBounds
  | some dst => .ok dst

variable (before after : List α) (value : α)

@[simp] theorem load_append :
    load (before ++ value :: after) before.length = .ok value := by
  simp [load]

@[simp] theorem store_append (stored : α) :
    store (before ++ value :: after) before.length stored =
      .ok (before ++ stored :: after) := by
  simp [store]

theorem load_inside {memory : List α} {pos : Nat}
    (inside : pos < memory.length) : load memory pos = .ok memory[pos] := by
  simp [load, inside]

theorem store_inside {memory : List α} {pos : Nat}
    (inside : pos < memory.length) (stored : α) :
    store memory pos stored = .ok (memory.set pos stored) :=
  if_pos inside

theorem memcpy_inside {dst src : List α} {dstPos srcPos len : Nat}
    (target : dstPos + len ≤ dst.length)
    (source : srcPos + len ≤ src.length) :
    memcpy dst dstPos src srcPos len =
      .ok (Region.splice dst dstPos ((src.drop srcPos).take len)) := by
  have length : ((src.drop srcPos).take len).length = len := by
    rw [List.length_take, List.length_drop]
    omega
  have copied : Region.memcpy dst dstPos src srcPos len =
      some (Region.splice dst dstPos ((src.drop srcPos).take len)) := by
    rw [Region.memcpy, Region.read_eq source, Option.bind_some,
      Region.write_eq (by omega)]
  rw [memcpy, copied]

theorem memcpy_outside {dst src : List α} {dstPos srcPos len : Nat}
    (some : 0 < len) (target : dst.length < dstPos + len)
    (source : srcPos + len ≤ src.length) :
    memcpy dst dstPos src srcPos len = .error .outOfBounds := by
  have length : ((src.drop srcPos).take len).length = len := by
    rw [List.length_take, List.length_drop]
    omega
  have failed : Region.memcpy dst dstPos src srcPos len = none := by
    rw [Region.memcpy, Region.read_eq source, Option.bind_some, Region.write,
      length, if_neg (by omega), if_neg (by omega)]
  rw [memcpy, failed]

end Elements

/-- Read the string that starts at a position. -/
def stringAt (memory : List Char) (pos : Nat) : Except MemoryFault (List Char) :=
  if nul ∈ memory.drop pos then
    .ok ((memory.drop pos).takeWhile (· ≠ nul))
  else .error .outOfBounds

theorem stringAt_append (before after : List Char) {text : List Char}
    (isText : nul ∉ text) :
    stringAt (before ++ (text ++ nul :: after)) before.length = .ok text := by
  have kept : ∀ char ∈ text, (decide (char ≠ nul)) = true := by
    intro char member
    apply decide_eq_true
    rintro rfl
    exact isText member
  have read : (text ++ nul :: after).takeWhile (· ≠ nul) = text := by
    rw [List.takeWhile_append_of_pos kept]
    simp
  rw [stringAt, List.drop_left, if_pos (by simp), read]

theorem stringAt_start (after : List Char) {text : List Char}
    (isText : nul ∉ text) :
    stringAt (text ++ nul :: after) 0 = .ok text :=
  stringAt_append [] after isText

end CMemory
