import Mathlib.Tactic.Common

/-!
# Limits

The constants of `config.h` that several parts of the program share.
-/

namespace AFLPlusPlus

/-- `MAP_SIZE`: 2 to the power of `MAP_SIZE_POW2`. -/
def defaultMapSize : BitVec 32 := 1#32 <<< 16

def maxFile : Nat := 1 * 1024 * 1024

def calChances : BitVec 8 := 3#8

def trimStartSteps : Nat := 16

def trimMinBytes : Nat := 4

def trimEndSteps : Nat := 1024

def minAutoExtra : Nat := 3

def maxAutoExtra : Nat := 32

def useAutoExtras : Nat := 128

def maxAutoExtras : Nat := 128 * 64

end AFLPlusPlus
