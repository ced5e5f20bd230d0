import AFLPlusPlus.Support.Stores
import AFLPlusPlus.Support.Transitions
import AFLPlusPlus.Config
import Mathlib.Algebra.Order.Ring.Nat

/-!
# libdislocator

An allocator that gives each block pages of its own, right in front of a page
that may not be accessed.  Eight bytes below a block stand its length, in 32
bits, and a canary.  The pages of a block that was freed are protected and
never used again.
-/

namespace AFLPlusPlus.Libdislocator

open Buffer

def pageSize : Nat := 4096

/-- `ALLOC_ALIGN_SIZE`: the alignment of `max_align_t`. -/
def allocAlignSize : BitVec 64 := 16#64

def allocClobber : BitVec 8 := 0xcc#8

def tailAllocCanary : BitVec 8 := 0xac#8

/-- `PG_COUNT`, in the arithmetic of its argument. -/
def pgCount {bits : Nat} (l : BitVec bits) : BitVec bits :=
  (l + (BitVec.ofNat bits pageSize - 1)) / BitVec.ofNat bits pageSize

inductive Page
  | unmapped
  | readWrite
  | noAccess
  deriving DecidableEq

/-- The address space, and `total_mem`. -/
structure Heap where
  memory : Buffer
  pages : Nat → Page
  totalMem : BitVec 64

/-- What `__dislocator_init` sets. -/
structure Config where
  maxMem : BitVec 64
  hardFail : Bool
  noCallocOver : Bool
  alignAllocations : Bool
  allocCanary : BitVec (8 * 4)

/-- `max_mem` with the number that stands in `AFL_LD_LIMIT_MB`, if it is set and
accepted. -/
def dislocatorInit (limitMb : Option (BitVec 64)) : Option (BitVec 64) :=
  match limitMb with
  | none => some 0x40000000#64
  | some mmem =>
      if BitVec.allOnes 64 / 1024 / 1024 < mmem then none
      else some (mmem * 1024 * 1024)

/-- `mmap` of some bytes at a page of the choice of the kernel, all zero. -/
def mmap (first : Nat) (tlen : BitVec 64) (heap : Heap) : Option Heap :=
  let count := (tlen.toNat + (pageSize - 1)) / pageSize
  if 0 < first ∧ (first + count) * pageSize ≤ 2 ^ 64 ∧
      ∀ i < count, heap.pages (first + i) = .unmapped then
    some { heap with
      memory := heap.memory.storeBytes (first * pageSize)
        (List.replicate (count * pageSize) 0#8)
      pages := fun page =>
        if first ≤ page ∧ page < first + count then .readWrite
        else heap.pages page }
  else none

/-- `mprotect` with `PROT_NONE`, which fails where it is not at a page or where
nothing is mapped. -/
def mprotect (address : BitVec 64) (len : Nat) (heap : Heap) : Option Heap :=
  let first := address.toNat / pageSize
  let count := (len + (pageSize - 1)) / pageSize
  if address.toNat % pageSize = 0 ∧
      ∀ i < count, heap.pages (first + i) ≠ .unmapped then
    some { heap with
      pages := fun page =>
        if first ≤ page ∧ page < first + count then .noAccess
        else heap.pages page }
  else none

def ptrC (memory : Buffer) (ptr : BitVec 64) : BitVec (8 * 4) :=
  memory.loadAt 4 (ptr - 4).toNat

def ptrL (memory : Buffer) (ptr : BitVec 64) : BitVec (8 * 4) :=
  memory.loadAt 4 (ptr - 8).toNat

section Calls

variable (config : Config)

def alignUp (len : BitVec 64) : BitVec 64 :=
  (len &&& ~~~(allocAlignSize - 1)) + allocAlignSize

def Rounds (len : BitVec 64) : Prop :=
  config.alignAllocations = true ∧ len &&& (allocAlignSize - 1) ≠ 0

instance (len : BitVec 64) : Decidable (Rounds config len) :=
  inferInstanceAs (Decidable (_ ∧ _))

/-- `rlen` -/
def roundedLen (len : BitVec 64) : BitVec 64 :=
  if Rounds config len then alignUp len else len

/-- How far a block starts behind its header, which is at the end of the pages;
in `__dislocator_alloc` on `size_t`, in `free` on `u32`. -/
def pageGap {bits : Nat} (rlen : BitVec bits) : BitVec bits :=
  BitVec.ofNat bits pageSize * pgCount (rlen + 8) - rlen - 8

/-- The length and the canary below a block, and the canary behind it. -/
def writeMetadata (memory : Buffer) (ret len : BitVec 64) : Buffer :=
  ((memory.storeBytes (ret - 8).toNat (wordBytes 4 (len.setWidth 32))).storeBytes
    (ret - 4).toNat (wordBytes 4 config.allocCanary)).storeBytes
      (ret.toNat + len.toNat)
      (List.replicate ((roundedLen config len).toNat - len.toNat) tailAllocCanary)

/-- `__dislocator_alloc`; `none` where it ends the program. -/
def dislocatorAlloc (len : BitVec 64) (first : Nat) (heap : Heap) :
    Option (BitVec 64 × Heap) :=
  if config.maxMem < heap.totalMem + len ∨ heap.totalMem + len < heap.totalMem then
    if config.hardFail then none else some (0, heap)
  else
    let rlen := roundedLen config len
    let count := pgCount (rlen + 8)
    let base := BitVec.ofNat 64 (first * pageSize)
    (mmap first ((1 + count) * BitVec.ofNat 64 pageSize) heap).bind fun heap =>
    (mprotect (base + count * BitVec.ofNat 64 pageSize) pageSize heap).map
      fun heap =>
      let ret := base + pageGap rlen + 8
      (ret, { heap with
        memory := writeMetadata config heap.memory ret len
        totalMem := heap.totalMem + len })

def calloc (elemLen elemCnt : BitVec 64) (first : Nat) (heap : Heap) :
    Option (BitVec 64 × Heap) :=
  let len := elemLen * elemCnt
  if elemCnt ≠ 0 ∧ len / elemCnt ≠ elemLen then
    if config.noCallocOver then some (0, heap) else none
  else dislocatorAlloc config len first heap

def malloc (len : BitVec 64) (first : Nat) (heap : Heap) : Option (BitVec 64 × Heap) :=
  (dislocatorAlloc config len first heap).map fun (ret, heap) =>
    if ret ≠ 0 ∧ len ≠ 0 then
      (ret, { heap with
        memory := heap.memory.storeBytes ret.toNat
          (List.replicate len.toNat allocClobber) })
    else (ret, heap)

/-- The loop of `free` over the canary behind the block, with the length at its
end; `len` has 32 bits. -/
def checkTail (memory : Buffer) (ptr rlen : BitVec 64) :
    Nat → BitVec 32 → Option (BitVec 32)
  | 0, _ => none
  | fuel + 1, len =>
      if len.setWidth 64 < rlen then
        if memory (ptr + len.setWidth 64).toNat = tailAllocCanary then
          checkTail memory ptr rlen fuel (len + 1)
        else none
      else some len

def free (ptr : BitVec 64) (heap : Heap) : Option Heap :=
  if ptr = 0 then some heap
  else if ptrC heap.memory ptr ≠ config.allocCanary then none
  else
    let len : BitVec 32 := ptrL heap.memory ptr
    (if Rounds config (len.setWidth 64) then
      checkTail heap.memory ptr (alignUp (len.setWidth 64))
        (allocAlignSize.toNat + 1) len
    else some len).bind fun len' =>
    mprotect (ptr - (pageGap len').setWidth 64 - 8)
      (pgCount (len' + 8) * BitVec.ofNat 32 pageSize).toNat
      { heap with totalMem := heap.totalMem - len.setWidth 64 }

def realloc (ptr len : BitVec 64) (first : Nat) (heap : Heap) :
    Option (BitVec 64 × Heap) :=
  (malloc config len first heap).bind fun (ret, heap) =>
    if ret ≠ 0 ∧ ptr ≠ 0 then
      if ptrC heap.memory ptr ≠ config.allocCanary then none
      else
        let old := (ptrL heap.memory ptr).setWidth 64
        let copied := if len < old then len else old
        (free config ptr { heap with
          memory := heap.memory.storeBytes ret.toNat
            (heap.memory.loadBytes ptr.toNat copied.toNat) }).map
          fun heap => (ret, heap)
    else some (ret, heap)

end Calls

/-- A block as its owner knows it, and the first of its pages. -/
structure Block where
  ptr : BitVec 64
  len : BitVec 64
  first : Nat
  deriving DecidableEq

/-- The allocator, the blocks that are in use, and what the last call
returned. -/
structure State where
  heap : Heap
  live : List Block
  result : BitVec 64

/-- A call, with the page where `mmap` puts a new block, or a store of the
program to one of its blocks. -/
inductive Move
  | malloc (len : BitVec 64) (first : Nat)
  | calloc (elemLen elemCnt : BitVec 64) (first : Nat)
  | realloc (ptr len : BitVec 64) (first : Nat)
  | free (ptr : BitVec 64)
  | store (ptr : BitVec 64) (offset : Nat) (byte : BitVec 8)

/-- The block at a pointer, and the other ones. -/
def release (ptr : BitVec 64) : List Block → Option (Block × List Block)
  | [] => none
  | block :: live =>
      if block.ptr = ptr then some (block, live)
      else (release ptr live).map fun (found, rest) => (found, block :: rest)

def acquire (ret len : BitVec 64) (first : Nat) (live : List Block) : List Block :=
  if ret = 0 then live else ⟨ret, len, first⟩ :: live

/-- Only blocks that are in use are freed or reallocated. -/
def step (config : Config) (move : Move) (state : State) : Option State :=
  match move with
  | .malloc len first =>
      (malloc config len first state.heap).map fun (ret, heap) =>
        ⟨heap, acquire ret len first state.live, ret⟩
  | .calloc elemLen elemCnt first =>
      (calloc config elemLen elemCnt first state.heap).map fun (ret, heap) =>
        ⟨heap, acquire ret (elemLen * elemCnt) first state.live, ret⟩
  | .realloc ptr len first =>
      if ptr = 0 then
        (realloc config 0 len first state.heap).map fun (ret, heap) =>
          ⟨heap, acquire ret len first state.live, ret⟩
      else
        (release ptr state.live).bind fun (_, rest) =>
        (realloc config ptr len first state.heap).map fun (ret, heap) =>
          ⟨heap, if ret = 0 then state.live else acquire ret len first rest, ret⟩
  | .free ptr =>
      if ptr = 0 then
        (free config 0 state.heap).map fun heap => ⟨heap, state.live, 0⟩
      else
        (release ptr state.live).bind fun (_, rest) =>
        (free config ptr state.heap).map fun heap => ⟨heap, rest, 0⟩
  | .store ptr offset byte =>
      (release ptr state.live).bind fun (block, _) =>
        if offset < block.len.toNat then
          some { state with
            heap.memory := state.heap.memory.storeBytes (ptr.toNat + offset) [byte] }
        else none

def start (memory : Buffer) (pages : Nat → Page) : State := ⟨⟨memory, pages, 0⟩, [], 0⟩

end AFLPlusPlus.Libdislocator
