import AFLPlusPlus.Allocators.DislocatorBlocks
import AFLPlusPlus.Allocators.Quarantine

/-!
# The blocks of libqasan

A block is laid out by hand in memory of the backend: a header with a redzone,
the bytes that were asked for, and a redzone behind them.
`__libqasan_posix_memalign` moves the bytes up to the alignment, and asks the
backend for less than that takes.
-/

namespace AFLPlusPlus.Libqasan

open Libdislocator (allocAlignSize alignUp)

def redzoneSize : BitVec 64 := 128#64

/-- `sizeof(struct chunk_struct)` -/
def chunkStructSize : BitVec 64 := BitVec.ofNat 64 (chunkBeginSize + 128 + 8)

/-- Bytes from an address on. -/
structure Region where
  start : BitVec 64
  size : Nat

def Region.Contains (outer inner : Region) : Prop :=
  outer.start.toNat ≤ inner.start.toNat ∧
    inner.start.toNat + inner.size ≤ outer.start.toNat + outer.size

/-- Where a block is laid out. -/
structure Layout where
  memory : Region
  leftRedzone : Region
  rightRedzone : Region

/-- A pointer that is returned, with the layout unless the block is one of the
temporary zone. -/
structure Block where
  data : BitVec 64
  layout : Option Layout

/-- The redzones around the bytes; `slack` is where the functions differ. -/
def redzones (memory : Region) (data len slack : BitVec 64) : Block where
  data := data
  layout := some
    { memory
      leftRedzone := ⟨data - redzoneSize, redzoneSize.toNat⟩
      rightRedzone := ⟨data + len,
        (if len &&& (allocAlignSize - 1) ≠ 0 then
          (len &&& ~~~(allocAlignSize - 1)) + slack - len + redzoneSize
        else redzoneSize).toNat⟩ }

structure ZoneState where
  mallocInitialized : Bool
  tmpAllocZoneIdx : BitVec 32

/-- What `__libqasan_posix_memalign` does but for returning 0: the errors, and a
division by 0 or a call through a pointer that was not looked up. -/
inductive MemalignFault
  | einval
  | enomem
  | crash

section Calls

variable (tmpAllocZone : BitVec 64)
  (backendMalloc : BitVec 64 → Option (BitVec 64))

/-- A block of the temporary zone, and how far it reaches. -/
def ofTmpZone (size : BitVec 64) (state : ZoneState) : Block × ZoneState :=
  (⟨tmpAllocZone + state.tmpAllocZoneIdx.signExtend 64, none⟩,
    { state with
      tmpAllocZoneIdx := state.tmpAllocZoneIdx + size.setWidth 32 })

/-- `__libqasan_malloc`; the first call is the one that initializes. -/
def libqasanMalloc (size : BitVec 64) (state : ZoneState) : Option Block × ZoneState :=
  if state.mallocInitialized = false then
    let (block, state) := ofTmpZone tmpAllocZone
      (if size &&& (allocAlignSize - 1) ≠ 0 then alignUp size else size)
      { state with mallocInitialized := true }
    (some block, state)
  else
    ((backendMalloc (chunkStructSize + size)).map fun p =>
      redzones ⟨p, (chunkStructSize + size).toNat⟩
        (p + BitVec.ofNat 64 chunkBeginSize) size 8#64, state)

def libqasanCalloc (nmemb size : BitVec 64) (state : ZoneState) :
    Option Block × ZoneState :=
  let size := size * nmemb
  if state.mallocInitialized = false then
    let (block, state) := ofTmpZone tmpAllocZone size state
    (some block, state)
  else libqasanMalloc tmpAllocZone backendMalloc size state

/-- `__libqasan_realloc`: the old block is copied from and freed, but the new one
is always that of `__libqasan_malloc`. -/
def libqasanRealloc (_ptr size : BitVec 64) (state : ZoneState) :
    Option Block × ZoneState :=
  libqasanMalloc tmpAllocZone backendMalloc size state

/-- `__libqasan_posix_memalign`, with what it leaves in `*ptr`. -/
def libqasanPosixMemalign (align len : BitVec 64) (state : ZoneState) :
    Except MemalignFault (Option Block) :=
  if align % 2#64 ≠ 0 ∨ align % 8#64 ≠ 0 then .error .einval
  else if len = 0 then .ok none
  else if align = 0 ∨ state.mallocInitialized = false then .error .crash
  else
    let rem := len % align
    let size := if rem ≠ 0 then len + rem else len
    match backendMalloc (chunkStructSize + size) with
    | none => .error .enomem
    | some orig =>
        let data := orig + BitVec.ofNat 64 chunkBeginSize
        let data := data + (align - data % align)
        .ok (some (redzones ⟨orig, (chunkStructSize + size).toNat⟩ data len
          allocAlignSize))

end Calls

/-- `n` bytes at a multiple of `align`, which are in memory of the backend
together with both redzones. -/
def Block.Serves (block : Block) (align n : Nat) : Prop :=
  align ∣ block.data.toNat ∧ ∃ layout ∈ block.layout,
    layout.memory.Contains layout.leftRedzone ∧
      layout.memory.Contains ⟨block.data, n⟩ ∧
      layout.memory.Contains layout.rightRedzone

/-- What the backend gives is aligned, and it is in the address space. -/
def GivesMemory (backendMalloc : BitVec 64 → Option (BitVec 64)) : Prop :=
  ∀ size, ∀ address ∈ backendMalloc size, 16 ∣ address.toNat ∧
    address.toNat + size.toNat ≤ 2 ^ 64

/-- The bytes between the end of a block and the next multiple of 16. -/
def pad (len : Nat) : Nat := (16 - len % 16) % 16

/-- How far `__libqasan_posix_memalign` moves the bytes of a block. -/
def alignmentShift (orig align : Nat) : Nat := align - (orig + chunkBeginSize) % align

variable {data len size : BitVec 64} {n slack : Nat}

theorem toNat_rightRedzone (len : BitVec 64) (least : 8 ≤ slack) (most : slack ≤ 16) :
    (if len &&& (allocAlignSize - 1) ≠ 0 then
      (len &&& ~~~(allocAlignSize - 1)) + BitVec.ofNat 64 slack - len + redzoneSize
      else redzoneSize).toNat =
        if len.toNat % 16 = 0 then 128 else slack + 128 - len.toNat % 16 := by
  have isMask : (allocAlignSize - 1).toNat = 2 ^ 4 - 1 := rfl
  have zone : redzoneSize.toNat = 128 := rfl
  have bound := len.isLt
  have remainder : (len &&& (allocAlignSize - 1)).toNat = len.toNat % 16 := by
    rw [BitVec.toNat_and, isMask, Nat.and_two_pow_sub_one_eq_mod]
  have low : (len &&& ~~~(allocAlignSize - 1)).toNat = len.toNat / 16 * 16 := by
    rw [Libdislocator.low_bits, BitVec.toNat_shiftLeft,
      BitVec.toNat_ushiftRight, Nat.shiftLeft_eq, Nat.shiftRight_eq_div_pow,
      Nat.mod_eq_of_lt (by omega)]
  by_cases whole : len.toNat % 16 = 0
  · rw [if_pos whole, if_neg, zone]
    rw [not_not]
    exact BitVec.eq_of_toNat_eq (remainder.trans whole)
  · rw [if_neg whole, if_pos]
    · rw [BitVec.toNat_add, BitVec.toNat_sub, BitVec.toNat_add, low, zone,
        BitVec.toNat_ofNat]
      omega
    · intro zero
      rw [zero] at remainder
      exact whole remainder.symm

/-- A block and its redzones fit just if the memory was large enough for them;
no number wraps round then. -/
theorem redzones_serves_iff {memory : Region} {align : Nat} (least : 8 ≤ slack)
    (most : slack ≤ 16) (inside : memory.start.toNat + memory.size ≤ 2 ^ 64)
    (small : memory.size < 2 ^ 64) (whole : len.toNat ≤ n) :
    (redzones memory data len (BitVec.ofNat 64 slack)).Serves align n ↔
      align ∣ data.toNat ∧ memory.start.toNat + 128 ≤ data.toNat ∧
        data.toNat + n ≤ memory.start.toNat + memory.size ∧
        data.toNat + len.toNat +
          (if len.toNat % 16 = 0 then 128 else slack + 128 - len.toNat % 16) ≤
            memory.start.toNat + memory.size := by
  have zone : redzoneSize.toNat = 128 := rfl
  have bound := data.isLt
  simp only [Block.Serves, redzones, Option.mem_def, Option.some.injEq,
    exists_eq_left', Region.Contains, toNat_rightRedzone len least most, zone,
    BitVec.toNat_sub, BitVec.toNat_add]
  have positive : 0 < if len.toNat % 16 = 0 then 128
      else slack + 128 - len.toNat % 16 := by
    split <;> omega
  generalize (if len.toNat % 16 = 0 then 128
    else slack + 128 - len.toNat % 16) = right at positive ⊢
  constructor
  · rintro ⟨aligned, ⟨left, fitsLeft⟩, ⟨above, fits⟩, _, fitsRight⟩
    refine ⟨aligned, by omega, fits, ?_⟩
    rwa [Nat.mod_eq_of_lt (by omega)] at fitsRight
  · rintro ⟨aligned, above, fits, fitsRight⟩
    have atRight := Nat.mod_eq_of_lt
      (show data.toNat + len.toNat < 2 ^ 64 by omega)
    rw [atRight]
    exact ⟨aligned, by omega, by omega, by omega, fitsRight⟩

/-- What `__libqasan_malloc` lays out for `n` bytes, of which `size` is left in
64 bits. -/
theorem malloc_serves_iff {backendMalloc : BitVec 64 → Option (BitVec 64)}
    (gives : GivesMemory backendMalloc) {p : BitVec 64}
    (given : p ∈ backendMalloc (chunkStructSize + size))
    (wraps : n % 2 ^ 64 = size.toNat) :
    (redzones ⟨p, (chunkStructSize + size).toNat⟩
        (p + BitVec.ofNat 64 chunkBeginSize) size 8#64).Serves 16 n ↔
      n + 296 < 2 ^ 64 := by
  obtain ⟨aligned, inside⟩ := gives _ p given
  have header : (BitVec.ofNat 64 chunkBeginSize).toNat = 160 := rfl
  have whole : chunkStructSize.toNat = 296 := rfl
  have bound := size.isLt
  have boundP := p.isLt
  rw [redzones_serves_iff (by omega) (by omega) inside (BitVec.isLt _)
    (by omega), BitVec.toNat_add p, header]
  rw [BitVec.toNat_add, whole] at inside ⊢
  dsimp only
  constructor
  · rintro ⟨-, above, fits, -⟩
    omega
  · intro small
    split <;> omega

theorem memalign_serves_iff {backendMalloc : BitVec 64 → Option (BitVec 64)}
    (gives : GivesMemory backendMalloc) {align orig : BitVec 64}
    (nonzero : 0 < align.toNat)
    (given : orig ∈ backendMalloc (chunkStructSize + (len + len % align))) :
    (redzones ⟨orig, (chunkStructSize + (len + len % align)).toNat⟩
        (orig + BitVec.ofNat 64 chunkBeginSize +
          (align - (orig + BitVec.ofNat 64 chunkBeginSize) % align)) len
        allocAlignSize).Serves align.toNat len.toNat ↔
      len.toNat + len.toNat % align.toNat + 296 < 2 ^ 64 ∧
        alignmentShift orig.toNat align.toNat + pad len.toNat ≤
          8 + len.toNat % align.toNat := by
  obtain ⟨-, inside⟩ := gives _ orig given
  have header : (BitVec.ofNat 64 chunkBeginSize).toNat = 160 := rfl
  have whole : chunkStructSize.toNat = 296 := rfl
  have boundA := align.isLt
  have remLess := Nat.mod_lt len.toNat nonzero
  have remLe := Nat.mod_le len.toNat align.toNat
  have below := Nat.mod_lt (orig.toNat + 160) nonzero
  have unmoved := @Nat.mod_eq_of_lt (orig.toNat + 160) align.toNat
  have isShift : alignmentShift orig.toNat align.toNat =
      align.toNat - (orig.toNat + 160) % align.toNat := rfl
  have multiple : align.toNat ∣
      orig.toNat + 160 + alignmentShift orig.toNat align.toNat := by
    refine ⟨(orig.toNat + 160) / align.toNat + 1, ?_⟩
    have split := Nat.div_add_mod (orig.toNat + 160) align.toNat
    rw [isShift, Nat.mul_succ]
    omega
  have moved (room : orig.toNat + 160 < 2 ^ 64) :
      (orig + BitVec.ofNat 64 chunkBeginSize +
        (align - (orig + BitVec.ofNat 64 chunkBeginSize) % align)).toNat =
        (orig.toNat + 160 + alignmentShift orig.toNat align.toNat) %
          2 ^ 64 := by
    have start : (orig + BitVec.ofNat 64 chunkBeginSize).toNat = orig.toNat + 160 := by
      rw [BitVec.toNat_add, header, Nat.mod_eq_of_lt room]
    rw [BitVec.toNat_add, BitVec.toNat_sub_of_le, BitVec.toNat_umod, start, isShift]
    rw [BitVec.le_def, BitVec.toNat_umod, start]
    exact Nat.le_of_lt below
  have isSlack : allocAlignSize = BitVec.ofNat 64 16 := rfl
  rw [isSlack, redzones_serves_iff (by omega) (by omega) inside (BitVec.isLt _)
    (Nat.le_refl _)]
  have size : (chunkStructSize + (len + len % align)).toNat =
      (296 + (len.toNat + len.toNat % align.toNat) % 2 ^ 64) % 2 ^ 64 := by
    rw [BitVec.toNat_add, BitVec.toNat_add, BitVec.toNat_umod, whole]
  dsimp only at inside ⊢
  rw [size] at inside ⊢
  clear size gives given whole header isSlack
  generalize (orig + BitVec.ofNat 64 chunkBeginSize +
    (align - (orig + BitVec.ofNat 64 chunkBeginSize) % align)).toNat = data at *
  generalize alignmentShift orig.toNat align.toNat = shift,
    len.toNat % align.toNat = rem at *
  have reach : 128 + pad len.toNat = if len.toNat % 16 = 0 then 128
      else 16 + 128 - len.toNat % 16 := by
    unfold pad
    split <;> omega
  rw [← reach]
  generalize pad len.toNat = padding
  constructor
  · rintro ⟨-, least, fits, fitsRight⟩
    have small : len.toNat + rem + 296 < 2 ^ 64 := by omega
    have isData := moved (by omega)
    refine ⟨small, ?_⟩
    have noWrap : orig.toNat + 160 + shift < 2 ^ 64 := by
      by_contra wrapped
      omega
    rw [Nat.mod_eq_of_lt noWrap] at isData
    omega
  · rintro ⟨small, enough⟩
    have isData := moved (by omega)
    rw [Nat.mod_eq_of_lt (by omega)] at isData
    exact ⟨isData ▸ multiple, by omega, by omega, by omega⟩

section Allocations

variable {tmpAllocZone : BitVec 64}
  {backendMalloc : BitVec 64 → Option (BitVec 64)} {state : ZoneState}
  {block : Block}

theorem Block.not_serves (align n : Nat) : ¬(Block.mk data none).Serves align n :=
  fun ⟨_, _, layout, _⟩ => by cases layout

theorem libqasanMalloc_serves_iff (gives : GivesMemory backendMalloc)
    (wraps : n % 2 ^ 64 = size.toNat)
    (returned : (libqasanMalloc tmpAllocZone backendMalloc size state).1 =
      some block) :
    block.Serves 16 n ↔ state.mallocInitialized = true ∧ n + 296 < 2 ^ 64 := by
  unfold libqasanMalloc at returned
  split at returned
  · rename_i first
    obtain rfl := Option.some.inj returned
    rw [first]
    exact iff_of_false (Block.not_serves 16 n) fun both => nomatch both.1
  · rename_i later
    obtain ⟨p, given, rfl⟩ := Option.map_eq_some_iff.mp returned
    rw [malloc_serves_iff gives given wraps]
    simp [later]

/-- The blocks of each function that have what was asked for: those of a
wrapper whose allocator is initialized, for sizes that do not wrap round; and in
the last one the shift for the alignment and the padding must not need more than
the eight bytes behind the redzone and the remainder. -/
theorem allocations_serve_iff (gives : GivesMemory backendMalloc)
    (state : ZoneState) :
    (∀ size block,
      (libqasanMalloc tmpAllocZone backendMalloc size state).1 = some block →
        (block.Serves 16 size.toNat ↔
          state.mallocInitialized = true ∧ size.toNat + 296 < 2 ^ 64)) ∧
      (∀ nmemb size block,
        (libqasanCalloc tmpAllocZone backendMalloc nmemb size state).1 =
          some block →
            (block.Serves 16 (nmemb.toNat * size.toNat) ↔
              state.mallocInitialized = true ∧
                nmemb.toNat * size.toNat + 296 < 2 ^ 64)) ∧
      (∀ ptr size block,
        (libqasanRealloc tmpAllocZone backendMalloc ptr size state).1 =
          some block →
            (block.Serves 16 size.toNat ↔
              state.mallocInitialized = true ∧ size.toNat + 296 < 2 ^ 64)) ∧
      ∀ align len block,
        libqasanPosixMemalign backendMalloc align len state =
          .ok (some block) →
            ∃ orig, backendMalloc
                (chunkStructSize + (len + len % align)) = some orig ∧
              (block.Serves align.toNat len.toNat ↔
                len.toNat + len.toNat % align.toNat + 296 < 2 ^ 64 ∧
                  alignmentShift orig.toNat align.toNat + pad len.toNat ≤
                    8 + len.toNat % align.toNat) := by
  have whole (size : BitVec 64) : size.toNat % 2 ^ 64 = size.toNat :=
    Nat.mod_eq_of_lt size.isLt
  refine ⟨fun size block => libqasanMalloc_serves_iff gives (whole size), ?_,
    fun ptr size block => libqasanMalloc_serves_iff gives (whole size), ?_⟩
  · intro nmemb size block returned
    unfold libqasanCalloc at returned
    split at returned
    · rename_i first
      obtain rfl := Option.some.inj returned
      rw [first]
      exact iff_of_false (Block.not_serves 16 _) fun both => nomatch both.1
    · apply libqasanMalloc_serves_iff gives _ returned
      rw [BitVec.toNat_mul, Nat.mul_comm]
  · intro align len block returned
    unfold libqasanPosixMemalign at returned
    split at returned
    · cases returned
    · split at returned
      · cases returned
      · split at returned
        · cases returned
        · rename_i usable
          have nonzero : 0 < align.toNat := by
            apply Nat.pos_of_ne_zero
            intro zero
            exact usable (.inl (BitVec.eq_of_toNat_eq zero))
          have sum : (if len % align ≠ 0 then len + len % align else len) =
              len + len % align := by
            split
            · rfl
            · rename_i even
              rw [not_not.mp even]
              exact (BitVec.add_zero len).symm
          dsimp only at returned
          rw [sum] at returned
          split at returned
          · cases returned
          · rename_i orig given
            obtain rfl := Option.some.inj (Except.ok.inj returned)
            exact ⟨orig, given, memalign_serves_iff gives nonzero given⟩

end Allocations

/-- A backend with one free block. -/
def oneBlock (size : BitVec 64) : Option (BitVec 64) :=
  if size < 0x10000#64 then some 0x10000#64 else none

theorem oneBlock_gives : GivesMemory oneBlock := by
  intro size address given
  obtain ⟨small, same⟩ := Option.ite_none_right_eq_some.mp given
  obtain rfl := Option.some.inj same
  exact ⟨by decide, by bv_omega⟩

theorem allocations_serve_iff_oneBlock :
    ∃ block, (libqasanMalloc 0 oneBlock 24#64 ⟨true, 0⟩).1 = some block ∧
      block.Serves 16 24 :=
  ⟨_, rfl, ((@allocations_serve_iff 0 _ oneBlock_gives ⟨true, 0⟩).1 24#64 _
    rfl).mpr ⟨rfl, by decide⟩⟩

/-- `posix_memalign(&ptr, 4096, 1)` asks the backend for 298 bytes, and then moves
the block up by 3936. -/
theorem posixMemalign_outside :
    ∃ block, libqasanPosixMemalign oneBlock 4096#64 1#64 ⟨true, 0⟩ =
        .ok (some block) ∧ ¬block.Serves 4096 1 := by
  refine ⟨_, rfl, ?_⟩
  rintro ⟨_, _, ⟨⟩, _, ⟨_, fits⟩, _⟩
  exact absurd fits (by decide)

end AFLPlusPlus.Libqasan
