import AFLPlusPlus.Support.Buffer
import AFLPlusPlus.Support.Loops

/-!
# Coverage maps of the fuzzer

The part of `afl_state_t` that the coverage routines read and write: the trace
of the last execution, the three virgin maps, their common size, and the flag
that asks for the bitmap to be written to disk.
-/

namespace AFLPlusPlus

/-- The two builds of the coverage routines: `coverage-32.h` walks the maps
in words of four bytes, `coverage-64.h` in words of eight. -/
inductive WordSize where
  | word32
  | word64
  deriving DecidableEq, Repr

namespace WordSize

variable (flavour : WordSize)

def bytes : WordSize → Nat
  | word32 => 4
  | word64 => 8

theorem bytes_pos : 0 < flavour.bytes := by
  cases flavour <;> decide

theorem bytes_dvd_pack : flavour.bytes ∣ 64 := by
  cases flavour <;> decide

end WordSize

/-- Which of the virgin maps a routine is called with. -/
inductive VirginMap where
  | bits
  | tmout
  | crash
  deriving DecidableEq, Repr

/-- The coverage maps of `afl_state_t`.  Every map size the tools settle on is
rounded up to a multiple of 64. -/
structure CoverageMaps where
  /-- `fsrv.map_size` -/
  mapSize : Nat
  aligned : 64 ∣ mapSize
  /-- `fsrv.trace_bits` -/
  traceBits : Buffer
  virginBits : Buffer
  virginTmout : Buffer
  virginCrash : Buffer
  bitmapChanged : Bool

namespace CoverageMaps

variable (afl : CoverageMaps) (map : VirginMap) (content : Buffer) (flavour : WordSize)

/-- The map a `virgin_map` argument points to. -/
def virgin (afl : CoverageMaps) : VirginMap → Buffer
  | .bits => afl.virginBits
  | .tmout => afl.virginTmout
  | .crash => afl.virginCrash

/-- Write through a `virgin_map` argument. -/
def setVirgin (afl : CoverageMaps) (map : VirginMap) (content : Buffer) :
    CoverageMaps :=
  match map with
  | .bits => { afl with virginBits := content }
  | .tmout => { afl with virginTmout := content }
  | .crash => { afl with virginCrash := content }

@[simp] theorem virgin_setVirgin : (afl.setVirgin map content).virgin map = content := by
  cases map <;> rfl

@[simp] theorem mapSize_setVirgin : (afl.setVirgin map content).mapSize = afl.mapSize := by
  cases map <;> rfl

@[simp] theorem traceBits_setVirgin :
    (afl.setVirgin map content).traceBits = afl.traceBits := by
  cases map <;> rfl

@[simp] theorem bitmapChanged_setVirgin :
    (afl.setVirgin map content).bitmapChanged = afl.bitmapChanged := by
  cases map <;> rfl

@[simp] theorem virgin_bitmapChanged (changed : Bool) :
    ({ afl with bitmapChanged := changed } : CoverageMaps).virgin map =
      afl.virgin map := by
  cases map <;> rfl

@[simp] theorem virgin_traceBits (trace : Buffer) :
    ({ afl with traceBits := trace } : CoverageMaps).virgin map = afl.virgin map := by
  cases map <;> rfl

theorem wordCount_exact : flavour.bytes * (afl.mapSize / flavour.bytes) = afl.mapSize :=
  Nat.mul_div_cancel' (Nat.dvd_trans flavour.bytes_dvd_pack afl.aligned)

end CoverageMaps

end AFLPlusPlus
