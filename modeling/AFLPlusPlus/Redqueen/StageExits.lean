import AFLPlusPlus.Redqueen.Stage
import Mathlib.Algebra.Order.Ring.Nat

/-!
# The exits of the input-to-state stage

After the stage the buffer of the caller should hold the test case again, unless
the entry is abandoned, and the pointers of the entry should lead to allocated
memory.  Some of the exits keep neither.
-/

namespace AFLPlusPlus.Redqueen

namespace StageState

/-- The pointers of the entry lead to memory that is allocated. -/
structure NoDangling (afl : StageState) : Prop where
  taint : ∀ pointer, afl.queueCur.taint = some pointer →
    afl.heap.tainted pointer ≠ none
  input : ∀ pointer, afl.queueCur.cmplogColorinput = some pointer →
    afl.heap.inputs pointer ≠ none

/-- What the caller finds after the stage has returned `r`. -/
def Restored (orig : List (BitVec 8)) (r : Nat) (afl : StageState) : Prop :=
  (r = 0 → afl.outBuf = orig) ∧ afl.NoDangling

/-- The caller has copied the test case, and the pointers are good. -/
structure Ready (orig : List (BitVec 8)) (afl : StageState) : Prop where
  outBuf : afl.outBuf = orig
  noDangling : afl.NoDangling
  taintUsed : ∀ pointer, afl.queueCur.taint = some pointer → pointer < afl.heap.fresh

variable {environment : StageEnvironment} {orig : List (BitVec 8)}
  {afl : StageState}

theorem NoDangling.store (noDangling : afl.NoDangling)
    (bytes : List (BitVec 8)) (buf : StageBuffer) :
    (afl.store bytes buf).NoDangling := by
  cases buf with
  | outBuf => exact ⟨noDangling.taint, noDangling.input⟩
  | colorinput input =>
      refine ⟨noDangling.taint, fun pointer isInput => ?_⟩
      change Function.update afl.heap.inputs input (some bytes) pointer ≠ none
      rw [Function.update_apply]
      split
      · exact Option.some_ne_none _
      · exact noDangling.input pointer isInput

variable {cmplogLvl taint : Nat}

/-- All replacements leave the checksum, and no comparison is solved. -/
def steadyRuns (cmplogLvl : Nat) : StageEnvironment where
  color := ⟨fun _ _ => ⟨false, 0#64, false⟩, [0, 0, 0, 0]⟩
  cmplogLvl
  activePaths := 1
  cmplogAborts := fun _ _ => false
  insert := fun _ buf cbuf => ⟨buf, cbuf, false⟩

end StageState

end AFLPlusPlus.Redqueen
