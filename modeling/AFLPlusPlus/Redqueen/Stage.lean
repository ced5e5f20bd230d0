import AFLPlusPlus.Redqueen.Colorization

/-!
# The input-to-state stage

`input_to_state_stage` colorizes a test case, records the comparisons of both
versions and tries to solve them.  A queue entry keeps its taint and its
colorized input from one call to the next, behind pointers.
-/

namespace AFLPlusPlus.Redqueen

/-- Lists of tainted ranges and inputs in allocated memory.  A list is allocated
and freed as a whole.  Addresses from `fresh` on were never used. -/
structure StageHeap where
  tainted : Nat → Option (List Tainted)
  inputs : Nat → Option (List (BitVec 8))
  fresh : Nat

/-- The part of `queue_cur` that belongs to the stage. -/
structure StageEntry where
  taint : Option Nat
  cmplogColorinput : Option Nat
  colorized : Nat

/-- What the stage changes, with the buffer of its caller. -/
structure StageState where
  heap : StageHeap
  queueCur : StageEntry
  colorizeSuccess : Nat
  outBuf : List (BitVec 8)

/-- What the loop over the comparisons leaves in `buf` and `cbuf`, and whether
an execution ends it. -/
structure Inserted where
  buf : List (BitVec 8)
  cbuf : List (BitVec 8)
  aborts : Bool

/-- What the stage meets besides the colorization: whether the two executions
with recording end the stage, and what `cmp_fuzz` and `rtn_fuzz` do with their
buffers, all they write to. -/
structure StageEnvironment where
  color : ColorEnvironment
  cmplogLvl : Nat
  activePaths : Nat
  cmplogAborts : Nat → List (BitVec 8) → Bool
  insert : List Tainted → List (BitVec 8) → List (BitVec 8) → Inserted

/-- The memory that `buf` points to: that of the caller, or the colorized input
of an earlier call. -/
inductive StageBuffer where
  | outBuf
  | colorinput (pointer : Nat)

namespace StageState

variable (afl : StageState)

def load : StageBuffer → List (BitVec 8)
  | .outBuf => afl.outBuf
  | .colorinput pointer => (afl.heap.inputs pointer).getD []

def store (bytes : List (BitVec 8)) : StageBuffer → StageState
  | .outBuf => { afl with outBuf := bytes }
  | .colorinput pointer =>
      { afl with
        heap :=
          { afl.heap with
            inputs := Function.update afl.heap.inputs pointer (some bytes) } }

end StageState

end AFLPlusPlus.Redqueen
