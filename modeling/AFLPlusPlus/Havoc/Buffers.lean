import AFLPlusPlus.Dictionary.Stages
import AFLPlusPlus.Queue.TopRated

/-!
# The buffers of the havoc stage

Havoc and splicing work on buffers of `afl_realloc` and on the test cases of the
queue.  An access is checked against the allocation at the time; one that fails
is a fault, and so is a search that cannot end.
-/

namespace AFLPlusPlus

open EarlyExit

def aflAllocSizeOffset : Nat := 8

def initialGrowthSize : Nat := 64

/-- A buffer of `afl_realloc`. -/
structure AflBuf where
  completeSize : Nat
  bytes : Buffer

namespace AflBuf

def room (buf : AflBuf) : Nat := buf.completeSize - aflAllocSizeOffset

/-- `afl_realloc`; what is new in the buffer is arbitrary. -/
def realloc (buf : AflBuf) (size : Nat) : AflBuf :=
  let sizeNeeded := size + aflAllocSizeOffset
  if sizeNeeded ≤ buf.completeSize then buf
  else if sizeNeeded < initialGrowthSize then
    { buf with completeSize := initialGrowthSize }
  else
    let nextSize := (nextPow2 (BitVec.ofNat 64 sizeNeeded)).toNat
    { buf with completeSize := if nextSize = 0 then sizeNeeded else nextSize }

theorem le_nextPow2 (value : BitVec 64) :
    (nextPow2 value).toNat = 0 ∨ value.toNat ≤ (nextPow2 value).toNat := by
  have grows : ∀ (out : BitVec 64) (shift : Nat),
      out.toNat ≤ (out ||| out >>> shift).toNat := by
    intro out shift
    rw [BitVec.toNat_or]
    exact Nat.left_le_or
  have least : ∀ last : BitVec 64, (value - 1#64).toNat ≤ last.toNat →
      (last + 1#64).toNat = 0 ∨ value.toNat ≤ (last + 1#64).toNat := by
    intro last least
    bv_omega
  apply least
  exact ((((grows _ 1).trans (grows _ 2)).trans (grows _ 4)).trans
    (grows _ 8)).trans (grows _ 16)

variable {buf : AflBuf} {size : Nat}

theorem le_room_realloc (buf : AflBuf) (small : size < 2 ^ 32) :
    size ≤ (buf.realloc size).room := by
  have next := le_nextPow2 (BitVec.ofNat 64 (size + aflAllocSizeOffset))
  rw [BitVec.toNat_ofNat, Nat.mod_eq_of_lt (by
    unfold aflAllocSizeOffset
    omega)] at next
  unfold realloc room
  dsimp only
  unfold aflAllocSizeOffset initialGrowthSize at *
  split
  · omega
  · split
    · dsimp only
      omega
    · dsimp only
      split
      · omega
      · omega

theorem room_le_realloc (buf : AflBuf) (small : size < 2 ^ 32) :
    buf.room ≤ (buf.realloc size).room := by
  by_cases enough : size + aflAllocSizeOffset ≤ buf.completeSize
  · have same : buf.realloc size = buf := if_pos enough
    rw [same]
  · have grown := le_room_realloc buf small
    unfold room aflAllocSizeOffset at *
    omega

end AflBuf

/-- What must not happen: an access outside of an allocation, or a search for
an entry of the queue where there is none. -/
inductive HavocFault where
  | outOfBounds
  | noPartner
  deriving DecidableEq

/-- What is seen of the stage: the length after a step, the two buffers after an
execution, and a split point with the lengths of the two inputs. -/
inductive HavocEvent where
  | step (tempLen : Nat)
  | restored (outBuf inBuf : List (BitVec 8))
  | split (splitAt len targetLen : Nat)

/-- The buffers, with `len` as the length of `in_buf`, the queue, and what has
happened. -/
structure HavocState where
  inBuf : List (BitVec 8)
  outBuf : AflBuf
  outScratchBuf : AflBuf
  inScratchBuf : AflBuf
  savedInBuf : AflBuf
  tempLen : Nat
  draws : Nat
  execs : Nat
  queue : List (List (BitVec 8))
  readyForSplicingCount : Nat
  events : List HavocEvent
  fault : Option HavocFault

/-- A part of the stage, which leaves early with a fault, with
`goto abandon_entry`, or if it goes on forever. -/
abbrev Havoc (Value : Type) := EarlyExit HavocState Value

/-- Subtraction of `u32`. -/
def minus (value other : Nat) : Nat := (2 ^ 32 + value - other) % 2 ^ 32

theorem minus_eq {value other : Nat} (le : other ≤ value)
    (small : value < 2 ^ 32) : minus value other = value - other := by
  unfold minus
  omega

namespace Havoc

def fail (fault : HavocFault) : Havoc Unit := OptionT.mk fun state =>
  (none, { state with fault := some fault })

/-- An access is inside of an allocation. -/
def inside (condition : Prop) [Decidable condition] : Havoc Unit :=
  if condition then pure () else fail .outOfBounds

def record (event : HavocEvent) : Havoc Unit := modify fun state =>
  { state with events := state.events ++ [event] }

def element {Item : Type} (array : List Item) (index : Nat) : Havoc Item :=
  OptionT.mk fun state =>
    match array[index]? with
    | some item => (some item, state)
    | none => (none, { state with fault := some .outOfBounds })

def part (bytes : List (BitVec 8)) (start count : Nat) : Havoc (List (BitVec 8)) := do
  inside (start + count ≤ bytes.length)
  pure ((bytes.drop start).take count)

def readOut (start count : Nat) : Havoc (List (BitVec 8)) := do
  let state ← get
  inside (start + count ≤ state.outBuf.room)
  pure (state.outBuf.bytes.loadBytes start count)

def writeOut (start : Nat) (bytes : List (BitVec 8)) : Havoc Unit := do
  let state ← get
  inside (start + bytes.length ≤ state.outBuf.room)
  modify fun state =>
    { state with
      outBuf :=
        { state.outBuf with bytes := state.outBuf.bytes.storeBytes start bytes } }

def writeScratch (start : Nat) (bytes : List (BitVec 8)) : Havoc Unit := do
  let state ← get
  inside (start + bytes.length ≤ state.outScratchBuf.room)
  modify fun state =>
    { state with
      outScratchBuf :=
        { state.outScratchBuf with
          bytes := state.outScratchBuf.bytes.storeBytes start bytes } }

def writeInScratch (start : Nat) (bytes : List (BitVec 8)) : Havoc Unit := do
  let state ← get
  inside (start + bytes.length ≤ state.inScratchBuf.room)
  modify fun state =>
    { state with
      inScratchBuf :=
        { state.inScratchBuf with
          bytes := state.inScratchBuf.bytes.storeBytes start bytes } }

def reallocOut (size : Nat) : Havoc Unit := modify fun state =>
  { state with outBuf := state.outBuf.realloc size }

def reallocScratch (size : Nat) : Havoc Unit := modify fun state =>
  { state with outScratchBuf := state.outScratchBuf.realloc size }

def reallocInScratch (size : Nat) : Havoc Unit := modify fun state =>
  { state with inScratchBuf := state.inScratchBuf.realloc size }

/-- `out_buf = new_buf`, with `afl_swap_bufs`. -/
def swapBufs : Havoc Unit := modify fun state =>
  { state with outBuf := state.outScratchBuf, outScratchBuf := state.outBuf }

/-- `in_buf = afl->in_scratch_buf`, with `afl_swap_bufs`. -/
def takeInScratch (len : Nat) : Havoc Unit := modify fun state =>
  { state with
    inBuf := state.inScratchBuf.bytes.loadBytes 0 len
    inScratchBuf := state.savedInBuf
    savedInBuf := state.inScratchBuf }

def setInBuf (inBuf : List (BitVec 8)) : Havoc Unit := modify fun state =>
  { state with inBuf }

def setTempLen (tempLen : Nat) : Havoc Unit := modify fun state =>
  { state with tempLen }

end Havoc

end AFLPlusPlus
