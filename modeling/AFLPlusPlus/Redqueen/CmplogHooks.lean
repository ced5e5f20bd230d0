import AFLPlusPlus.Redqueen.RtnFuzz
import AFLPlusPlus.Support.Cells

/-!
# The hooks of a target that logs its comparisons

Every hook counts a hit of its location and stores the values into a ring of
slots.  A hook of the other type starts to count again, and the shape of a
location is that of its widest hook.
-/

namespace AFLPlusPlus.Redqueen

/-- `CMP_TYPE_INS` and `CMP_TYPE_RTN` -/
inductive CmpType where
  | ins
  | rtn
deriving DecidableEq

def CmpType.number : CmpType → BitVec 2
  | .ins => 1
  | .rtn => 2

/-- The fields of `struct cmp_header` that the hooks use. -/
@[ext]
structure CmpHeader where
  hits : BitVec 24
  shape : BitVec 5
  type : BitVec 2
  attr : BitVec 4

/-- `struct cmp_map`, with the bytes of the log of each location. -/
structure CmpMap where
  headers : Nat → CmpHeader
  log : Nat → Buffer

namespace CmpHeader

def cleared : CmpHeader := ⟨0, 0, 0, 0⟩

/-- A hit of a hook.  Of a location with this type, shapes below a bound are
replaced. -/
def hit (header : CmpHeader) (type : CmpType) (shape below : Nat) :
    CmpHeader :=
  if header.type ≠ type.number then
    { header with
      type := type.number
      hits := 1
      shape := BitVec.ofNat 5 shape }
  else
    { header with
      hits := header.hits + 1
      shape :=
        if header.shape.toNat < below then BitVec.ofNat 5 shape
        else header.shape }

def hitsBefore (header : CmpHeader) (type : CmpType) : Nat :=
  if header.type ≠ type.number then 0 else header.hits.toNat

end CmpHeader

/-- What a hook logs.  The size is the shape that belongs to the values, one
less than the number of their bytes. -/
inductive Logged where
  | ins (key : Nat) (size : Fin 16) (attr : BitVec 8)
      (arg1 arg2 : BitVec 128)
  | rtn (key : Nat) (size : Fin 32) (ptr1 ptr2 : Buffer)

namespace Logged

def key : Logged → Nat
  | .ins key .. => key
  | .rtn key .. => key

def type : Logged → CmpType
  | .ins .. => .ins
  | .rtn .. => .rtn

def size : Logged → Nat
  | .ins _ size .. => size
  | .rtn _ size .. => size

/-- Compares store into a cell, routines into two. -/
def stores (place : Nat) (reach : Nat → Nat) : Logged → Nat → Nat
  | .ins _ size .. =>
      Buffer.raise reach (place % cmpMapH) (if 7 < size then 32 else 16)
  | .rtn _ size .. =>
      Buffer.raise (Buffer.raise reach (2 * (place % cmpMapRtnH)) (size + 1))
        (2 * (place % cmpMapRtnH) + 1) (size + 1)

end Logged

/-- The fields of `struct cmp_operands` that a hook assigns. -/
def operandBytes (size : Fin 16) (arg1 arg2 : BitVec 128) : List (BitVec 8) :=
  Buffer.wordBytes 8 (arg1.setWidth 64) ++ Buffer.wordBytes 8 (arg2.setWidth 64) ++
    if 7 < size then
      Buffer.wordBytes 8 ((arg1 >>> 64).setWidth 64) ++
        Buffer.wordBytes 8 ((arg2 >>> 64).setWidth 64)
    else []

namespace CmpMap

/-- `CMP_MAP_H` operands of 32 bytes, or `CMP_MAP_RTN_H` of twice 32 bytes. -/
def record (map : CmpMap) : Logged → CmpMap
  | .ins key size attr arg1 arg2 =>
      let header := map.headers key
      let slot := header.hitsBefore .ins % cmpMapH
      { headers := Function.update map.headers key
          { header.hit .ins size size with attr := attr.setWidth 4 }
        log := Function.update map.log key
          ((map.log key).storeBytes (32 * slot) (operandBytes size arg1 arg2)) }
  | .rtn key size ptr1 ptr2 =>
      let header := map.headers key
      let slot := header.hitsBefore .rtn % cmpMapRtnH
      { headers := Function.update map.headers key (header.hit .rtn size (size + 1))
        log := Function.update map.log key
          (((map.log key).storeBytes (64 * slot)
            (ptr1.loadBytes 0 (size + 1))).storeBytes (64 * slot + 32)
              (ptr2.loadBytes 0 (size + 1))) }

end CmpMap

def cmplogKey (address : BitVec 64) : Nat :=
  (((address >>> 4) ^^^ (address <<< 8)) &&& 0xffff).toNat

/-- The hooks that do not log equal values. -/
def logDifferent {width : Nat} (address : BitVec 64) (size : Fin 16)
    (attr : BitVec 8) (arg1 arg2 : BitVec width) : List Logged :=
  if arg1 = arg2 then []
  else [.ins (cmplogKey address) size attr (arg1.setWidth 128) (arg2.setWidth 128)]

def cmplogInsHook1 (address : BitVec 64) (arg1 arg2 attr : BitVec 8) : List Logged :=
  logDifferent address 0 attr arg1 arg2

def cmplogInsHook2 (address : BitVec 64) (arg1 arg2 : BitVec 16)
    (attr : BitVec 8) : List Logged :=
  logDifferent address 1 attr arg1 arg2

def cmplogInsHook4 (address : BitVec 64) (arg1 arg2 : BitVec 32)
    (attr : BitVec 8) : List Logged :=
  logDifferent address 3 attr arg1 arg2

def cmplogInsHook8 (address : BitVec 64) (arg1 arg2 : BitVec 64)
    (attr : BitVec 8) : List Logged :=
  logDifferent address 7 attr arg1 arg2

/-- The sizes are those of integers up to 128 bits. -/
def cmplogInsHookN (address : BitVec 64) (arg1 arg2 : BitVec 128)
    (attr : BitVec 8) (size : Fin 16) : List Logged :=
  logDifferent address size attr arg1 arg2

def cmplogInsHook16 (address : BitVec 64) (arg1 arg2 : BitVec 128)
    (attr : BitVec 8) : List Logged :=
  [.ins (cmplogKey address) 15 attr arg1 arg2]

/-- `__sanitizer_cov_trace_switch`, with the constants behind the first two
words of the table. -/
def covTraceSwitch (address val : BitVec 64) (cases : List (BitVec 64)) :
    List Logged :=
  cases.zipIdx.map fun (constant, i) =>
    .ins (cmplogKey (address + BitVec.ofNat 64 i)) 7 1
      (val.setWidth 128) (constant.setWidth 128)

/-- `__cmplog_rtn_hook`, with the results of `area_is_valid` for 32 bytes. -/
def cmplogRtnHook (address : BitVec 64) (l1 l2 : Fin 33)
    (ptr1 ptr2 : Buffer) : List Logged :=
  if l1 = 0 ∨ l2 = 0 then []
  else [.rtn (cmplogKey address) (Fin.ofNat 32 (min l1 l2 - 1 : Nat)) ptr1 ptr2]

/-- A call of a hook by the target. -/
inductive HookCall where
  | ins1 (address : BitVec 64) (arg1 arg2 attr : BitVec 8)
  | ins2 (address : BitVec 64) (arg1 arg2 : BitVec 16) (attr : BitVec 8)
  | ins4 (address : BitVec 64) (arg1 arg2 : BitVec 32) (attr : BitVec 8)
  | ins8 (address : BitVec 64) (arg1 arg2 : BitVec 64) (attr : BitVec 8)
  | insN (address : BitVec 64) (arg1 arg2 : BitVec 128) (attr : BitVec 8)
      (size : Fin 16)
  | ins16 (address : BitVec 64) (arg1 arg2 : BitVec 128) (attr : BitVec 8)
  | switch (address val : BitVec 64) (cases : List (BitVec 64))
  | rtn (address : BitVec 64) (l1 l2 : Fin 33) (ptr1 ptr2 : Buffer)

/-- A routine with 32 bytes, and then with 16 bytes in front of the end of a
page. -/
def pageEnd : List HookCall :=
  [.rtn 0x401000 32 32 (fun _ => 1) (fun _ => 2),
    .rtn 0x401000 16 16 (fun _ => 3) (fun _ => 4)]

def HookCall.logged : HookCall → List Logged
  | .ins1 address arg1 arg2 attr => cmplogInsHook1 address arg1 arg2 attr
  | .ins2 address arg1 arg2 attr => cmplogInsHook2 address arg1 arg2 attr
  | .ins4 address arg1 arg2 attr => cmplogInsHook4 address arg1 arg2 attr
  | .ins8 address arg1 arg2 attr => cmplogInsHook8 address arg1 arg2 attr
  | .insN address arg1 arg2 attr size =>
      cmplogInsHookN address arg1 arg2 attr size
  | .ins16 address arg1 arg2 attr => cmplogInsHook16 address arg1 arg2 attr
  | .switch address val cases => covTraceSwitch address val cases
  | .rtn address l1 l2 ptr1 ptr2 => cmplogRtnHook address l1 l2 ptr1 ptr2

def loggedBy (calls : List HookCall) : List Logged := calls.flatMap HookCall.logged

/-- `input_to_state_stage` clears the headers before the run with the colorized
input, and nothing else. -/
def CmpMap.colorizedRun (map : CmpMap) (calls : List HookCall) : CmpMap :=
  (loggedBy calls).foldl CmpMap.record
    { map with headers := fun _ => CmpHeader.cleared }

/-- The place of a byte of the first value in `struct cmp_operands`. -/
def operandOffset (byte : Nat) : Nat := if byte < 8 then byte else byte + 8

/-- The bytes of a location that `cmp_fuzz` or `rtn_fuzz` uses. -/
def CmpMap.Uses (map : CmpMap) (key offset : Nat) : Prop :=
  let header := map.headers key
  if header.type = CmpType.ins.number then
    ∃ slot < min header.hits.toNat cmpMapH,
      ∃ byte < min (shapeBytes header.shape.toNat) 16,
        offset = 32 * slot + operandOffset byte ∨
          offset = 32 * slot + (operandOffset byte + 8)
  else
    ∃ slot < min header.hits.toNat cmpMapRtnH,
      ∃ byte < shapeBytes header.shape.toNat,
        offset = 64 * slot + byte ∨ offset = 64 * slot + (byte + 32)

/-- No byte that is used depends on what the map held before the run. -/
def ReadsFresh (calls : List HookCall) : Prop :=
  ∀ map other : CmpMap, ∀ key offset, (map.colorizedRun calls).Uses key offset →
    (map.colorizedRun calls).log key offset = (other.colorizedRun calls).log key offset

end AFLPlusPlus.Redqueen
