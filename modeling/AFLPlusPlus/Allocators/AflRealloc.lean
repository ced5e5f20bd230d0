import AFLPlusPlus.Havoc.Buffers
import Mathlib.Data.Nat.Bitwise

/-!
# The buffers of `afl_realloc`

A buffer lies behind a header that holds the size of the whole block, rounded up
by `next_pow2`.  Whoever holds the pointer asks for more room from time to time
and writes to the buffer in between.
-/

namespace AFLPlusPlus

open Buffer ByteWord

/-- A step of `next_pow2` doubles the reach of every bit. -/
theorem smear_bit {value out : BitVec 64} {reach : Nat}
    (smeared : ∀ i, out.getLsbD i = true ↔
      ∃ j < reach, value.getLsbD (i + j) = true) (i : Nat) :
    (out ||| out >>> reach).getLsbD i = true ↔
      ∃ j < 2 * reach, value.getLsbD (i + j) = true := by
  rw [BitVec.getLsbD_or, Bool.or_eq_true, BitVec.getLsbD_ushiftRight, smeared, smeared]
  constructor
  · rintro (⟨j, below, isSet⟩ | ⟨j, below, isSet⟩)
    · exact ⟨j, by omega, isSet⟩
    · refine ⟨reach + j, by omega, ?_⟩
      rw [← isSet]
      congr 1
      omega
  · rintro ⟨j, below, isSet⟩
    by_cases near : j < reach
    · exact .inl ⟨j, near, isSet⟩
    · refine .inr ⟨j - reach, by omega, ?_⟩
      rw [← isSet]
      congr 1
      omega

theorem nextPow2_bits (value : BitVec 64) :
    ∃ last, nextPow2 value = last + 1#64 ∧ ∀ i, last.getLsbD i = true ↔
      ∃ j < 32, (value - 1#64).getLsbD (i + j) = true := by
  have start : ∀ i, (value - 1#64).getLsbD i = true ↔
      ∃ j < 1, (value - 1#64).getLsbD (i + j) = true := by
    simp [Nat.lt_one_iff]
  have two := smear_bit start
  have four := smear_bit two
  have eight := smear_bit four
  have sixteen := smear_bit eight
  exact ⟨_, rfl, smear_bit sixteen⟩

theorem nextPow2_eq {value : BitVec 64} (positive : 0 < value.toNat)
    (small : value.toNat ≤ 2 ^ 32) :
    ∃ exponent, (nextPow2 value).toNat = 2 ^ exponent ∧
      value.toNat ≤ 2 ^ exponent ∧
        ∀ other, value.toNat ≤ 2 ^ other → exponent ≤ other := by
  have before : (value - 1#64).toNat = value.toNat - 1 := by bv_omega
  obtain ⟨last, isLast, bits⟩ := nextPow2_bits value
  have result (exponent : Nat) (bounded : exponent ≤ 32)
      (below : ∀ i, last.getLsbD i = true ↔ i < exponent) :
      (nextPow2 value).toNat = 2 ^ exponent := by
    have power := Nat.pow_le_pow_right (n := 2) (by omega) bounded
    have least := Nat.one_le_two_pow (n := exponent)
    have all : last = BitVec.ofNat 64 (2 ^ exponent - 1) := by
      apply BitVec.eq_of_getLsbD_eq
      intro i inside
      rw [Bool.eq_iff_iff, below, BitVec.getLsbD_ofNat, Nat.testBit_two_pow_sub_one]
      simp [inside]
    have one : (1#64).toNat = 1 := rfl
    rw [isLast, all, BitVec.toNat_add, BitVec.toNat_ofNat]
    omega
  by_cases single : value.toNat = 1
  · have zero : value - 1#64 = 0#64 := by bv_omega
    refine ⟨0, result 0 (by omega) fun i => ?_, by omega, fun _ _ =>
      Nat.zero_le _⟩
    rw [bits, zero]
    simp
  · obtain ⟨top, isSet, above⟩ := Nat.exists_most_significant_bit
      (n := value.toNat - 1) (by omega)
    have least := Nat.ge_two_pow_of_testBit isSet
    have most : value.toNat - 1 < 2 ^ (top + 1) :=
      Nat.lt_pow_two_of_testBit _ fun j beyond => above j (by omega)
    have bounded : top < 32 := by
      by_contra large
      have power := Nat.pow_le_pow_right (n := 2) (by omega)
        (Nat.not_lt.mp large)
      omega
    refine ⟨top + 1, result (top + 1) (by omega) fun i => ?_, by omega, ?_⟩
    · rw [bits]
      constructor
      · rintro ⟨j, _, bit⟩
        rw [BitVec.getLsbD, before] at bit
        by_contra beyond
        rw [above (i + j) (by omega)] at bit
        cases bit
      · intro inside
        refine ⟨top - i, by omega, ?_⟩
        rw [BitVec.getLsbD, before, ← isSet]
        congr 1
        omega
    · intro other enough
      by_contra fewer
      have power := Nat.pow_le_pow_right (n := 2) (by omega)
        (show other ≤ top by omega)
      omega

/-- A block that the C library has given, with the bytes of the header first. -/
structure AflAllocBuf where
  allocated : Nat
  memory : Buffer

namespace AflAllocBuf

/-- `complete_size` -/
def completeSize (buf : AflAllocBuf) : BitVec 64 := loadAt 8 buf.memory 0

def setCompleteSize (buf : AflAllocBuf) (size : BitVec 64) : AflAllocBuf :=
  { buf with memory := storeAt 8 buf.memory 0 size }

/-- `realloc`, with what is behind the old bytes in the new block if there is
memory for it. -/
def libcRealloc (buf : Option AflAllocBuf) (size : BitVec 64)
    (answer : Option Buffer) : Option AflAllocBuf :=
  answer.map fun fresh =>
    { allocated := size.toNat
      memory := fun address =>
        match buf with
        | some old =>
            if address < min old.allocated size.toNat then old.memory address
            else fresh address
        | none => fresh address }

def nextSize (sizeNeeded : BitVec 64) : BitVec 64 :=
  if sizeNeeded < 64#64 then 64#64
  else if nextPow2 sizeNeeded = 0#64 then sizeNeeded
  else nextPow2 sizeNeeded

def currentSize : Option AflAllocBuf → BitVec 64
  | some buf => buf.completeSize
  | none => 0#64

/-- `afl_realloc`: what it returns, and the handle afterwards. -/
def aflRealloc (buf : Option AflAllocBuf) (sizeNeeded : BitVec 64)
    (answer : Option Buffer) : Option AflAllocBuf × Option AflAllocBuf :=
  let sizeNeeded := sizeNeeded + BitVec.ofNat 64 aflAllocSizeOffset
  if sizeNeeded ≤ currentSize buf then (buf, buf)
  else
    match libcRealloc buf (nextSize sizeNeeded) answer with
    | none => (none, none)
    | some newerBuf =>
        let newBuf := newerBuf.setCompleteSize (nextSize sizeNeeded)
        (some newBuf, some newBuf)

/-- A request that does not overflow with the header. -/
structure Request where
  size : BitVec 64
  fits : size.toNat + aflAllocSizeOffset < 2 ^ 64

/-- What is done with a handle: more room is asked for, or a byte of the buffer
is written. -/
inductive Use where
  | request (asked : Request) (answer : Option Buffer)
  | write (offset : Nat) (value : BitVec 8)

def Use.apply (handle : Option AflAllocBuf) : Use → Option AflAllocBuf
  | .request asked answer => (aflRealloc handle asked.size answer).2
  | .write offset value =>
      handle.map fun buf =>
        if aflAllocSizeOffset + offset < buf.completeSize.toNat then
          { buf with memory :=
            Function.update buf.memory (aflAllocSizeOffset + offset) value }
        else buf

def run (uses : List Use) : Option AflAllocBuf := uses.foldl Use.apply none

def Valid (handle : Option AflAllocBuf) : Prop :=
  ∀ buf ∈ handle, buf.completeSize.toNat = buf.allocated

/-- The block has room for the request, and it has all the bytes of the block
before. -/
structure Serves (before : Option AflAllocBuf) (size : BitVec 64)
    (buf : AflAllocBuf) : Prop where
  header : buf.completeSize.toNat = buf.allocated
  covers : aflAllocSizeOffset + size.toNat ≤ buf.completeSize.toNat
  grows : ∀ old ∈ before, old.completeSize ≤ buf.completeSize
  keeps : ∀ old ∈ before, ∀ offset,
    aflAllocSizeOffset + offset < old.completeSize.toNat →
      buf.memory (aflAllocSizeOffset + offset) =
        old.memory (aflAllocSizeOffset + offset)

theorem completeSize_setCompleteSize (buf : AflAllocBuf) (size : BitVec 64) :
    (buf.setCompleteSize size).completeSize = size := by
  apply @eq_of_bytes 8
  intro offset inside
  exact (byte_loadAt _ _ inside).trans (storeAt_inside _ _ _ inside)

theorem le_nextSize (sizeNeeded : BitVec 64) : sizeNeeded ≤ nextSize sizeNeeded := by
  have next := AflBuf.le_nextPow2 sizeNeeded
  unfold nextSize
  split
  · bv_omega
  · split
    · exact BitVec.le_refl _
    · bv_omega

/-- What one call does. -/
theorem aflRealloc_spec {before : Option AflAllocBuf} (valid : Valid before)
    (request : Request) (answer : Option Buffer) :
    (aflRealloc before request.size answer).1 =
        (aflRealloc before request.size answer).2 ∧
      ∀ buf ∈ (aflRealloc before request.size answer).2,
        Serves before request.size buf := by
  have needed : (request.size + BitVec.ofNat 64 aflAllocSizeOffset).toNat =
      request.size.toNat + aflAllocSizeOffset := by
    rw [BitVec.toNat_add, BitVec.toNat_ofNat, Nat.add_mod_mod,
      Nat.mod_eq_of_lt request.fits]
  have enough := le_nextSize
    (request.size + BitVec.ofNat 64 aflAllocSizeOffset)
  rw [BitVec.le_def, needed] at enough
  unfold aflRealloc
  dsimp only
  split
  · rename_i covered
    rw [BitVec.le_def, needed] at covered
    refine ⟨rfl, ?_⟩
    rintro buf rfl
    dsimp only [currentSize] at covered
    refine ⟨valid buf rfl, by omega, ?_, ?_⟩
    · rintro old ⟨⟩
      exact BitVec.le_refl _
    · rintro old ⟨⟩ offset _
      rfl
  · rename_i more
    rw [BitVec.le_def, needed] at more
    cases answer with
    | none => exact ⟨rfl, nofun⟩
    | some fresh =>
        refine ⟨rfl, ?_⟩
        rintro buf ⟨⟩
        have size := completeSize_setCompleteSize
        refine ⟨congrArg BitVec.toNat (size _ _), by rw [size]; omega, ?_, ?_⟩
        · rintro old ⟨⟩
          rw [size, BitVec.le_def]
          dsimp only [currentSize] at more
          omega
        · rintro old ⟨⟩ offset inside
          have isValid := valid old rfl
          dsimp only [currentSize] at more
          refine (storeAt_outside _ _ _ ?_).trans (if_pos ?_)
          · unfold aflAllocSizeOffset
            omega
          · omega

theorem Valid.apply {handle : Option AflAllocBuf} (valid : Valid handle)
    (use : Use) : Valid (use.apply handle) := by
  cases use with
  | request asked answer =>
      exact fun buf after =>
        ((aflRealloc_spec valid asked answer).2 buf after).header
  | write offset value =>
      intro buf after
      obtain ⟨old, rfl, rfl⟩ := Option.map_eq_some_iff.mp after
      split
      · have header : loadAt 8 (Function.update old.memory
            (aflAllocSizeOffset + offset) value) 0 = loadAt 8 old.memory 0 := by
          apply @eq_of_bytes 8
          intro index inside
          rw [byte_loadAt _ _ inside, byte_loadAt _ _ inside]
          apply Function.update_of_ne
          unfold aflAllocSizeOffset
          omega
        exact (congrArg BitVec.toNat header).trans (valid old rfl)
      · exact valid old rfl

theorem valid_run (uses : List Use) : Valid (run uses) := by
  induction uses using List.reverseRecOn with
  | nil => exact nofun
  | append_singleton uses use induction =>
      rw [run, List.foldl_append]
      exact Valid.apply induction use

/-- After any uses of a handle, a call that succeeds leaves a block with room
for the request and all the old bytes, and one that fails leaves `NULL`; and what
`next_pow2` returns. -/
theorem aflRealloc_sound :
    (∀ uses (request : Request) answer,
      let call := aflRealloc (run uses) request.size answer
      call.1 = call.2 ∧ ∀ buf ∈ call.2, Serves (run uses) request.size buf) ∧
      (∀ value : BitVec 64, nextPow2 value = 0#64 ∨ value ≤ nextPow2 value) ∧
      ∀ value : BitVec 64, 0 < value.toNat → value.toNat ≤ 2 ^ 32 →
        ∃ exponent, (nextPow2 value).toNat = 2 ^ exponent ∧
          value.toNat ≤ 2 ^ exponent ∧
            ∀ other, value.toNat ≤ 2 ^ other → exponent ≤ other := by
  refine ⟨fun uses => aflRealloc_spec (valid_run uses), ?_, fun value => nextPow2_eq⟩
  intro value
  have next := AflBuf.le_nextPow2 value
  bv_omega

end AflAllocBuf

end AFLPlusPlus
