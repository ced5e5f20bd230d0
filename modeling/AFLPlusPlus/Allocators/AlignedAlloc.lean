import AFLPlusPlus.Allocators.DislocatorRuns
import Mathlib.Data.Nat.Prime.Basic

/-!
# Aligned allocation in libdislocator

`posix_memalign`, `memalign` and `aligned_alloc` round the length of a block up
to a multiple of the alignment.  A block ends at a page, so that it is aligned
whenever the alignment divides the size of a page.
-/

namespace AFLPlusPlus.Libdislocator

open Buffer

/-- How a call ends that does not return. -/
inductive Stop
  | fatal
  | divisionByZero
  deriving DecidableEq

def einval : Nat := 22

/-- What `posix_memalign` returns and stores. -/
structure Reply where
  error : Nat
  ptr : BitVec 64
  heap : Heap

section Calls

variable (config : Config)

/-- `__dislocator_alloc`, where `mmap` fails unless it can put the pages at
`first`. -/
def tryDislocatorAlloc (len : BitVec 64) (first : Nat) (heap : Heap) :
    Except Stop (BitVec 64 × Heap) :=
  let count := pgCount (roundedLen config len + 8)
  if config.maxMem < heap.totalMem + len ∨ heap.totalMem + len < heap.totalMem then
    if config.hardFail then .error .fatal else .ok (0#64, heap)
  else if (mmap first ((1 + count) * BitVec.ofNat 64 pageSize) heap).isNone then
    if config.hardFail then .error .fatal else .ok (0#64, heap)
  else
    match dislocatorAlloc config len first heap with
    | none => .error .fatal
    | some (ret, heap) => .ok (ret, heap)

/-- The length that `posix_memalign` allocates. -/
def paddedLen (align len : BitVec 64) : BitVec 64 :=
  let rem := len % align
  if rem ≠ 0#64 then len + (align - rem) else len

/-- `posix_memalign`, with what `*ptr` is before the call. -/
def posixMemalign (ptr align len : BitVec 64) (first : Nat) (heap : Heap) :
    Except Stop Reply :=
  if align % 2 ≠ 0#64 ∨ align % 8 ≠ 0#64 then .ok ⟨einval, ptr, heap⟩
  else if len = 0#64 then .ok ⟨0, 0#64, heap⟩
  else if align = 0#64 then .error .divisionByZero
  else
    let len := paddedLen align len
    (tryDislocatorAlloc config len first heap).map fun (ptr, heap) =>
      if ptr ≠ 0#64 ∧ len ≠ 0#64 then
        ⟨0, ptr, { heap with
          memory := heap.memory.storeBytes ptr.toNat
            (List.replicate len.toNat allocClobber) }⟩
      else ⟨0, ptr, heap⟩

def memalign (align len : BitVec 64) (first : Nat) (heap : Heap) : Except Stop Reply :=
  posixMemalign config 0#64 align len first heap

def alignedAlloc (align len : BitVec 64) (first : Nat) (heap : Heap) :
    Except Stop Reply :=
  if align = 0#64 then .error .divisionByZero
  else if len % align ≠ 0#64 then .ok ⟨0, 0#64, heap⟩
  else posixMemalign config 0#64 align len first heap

end Calls

/-- The functions, the first with what `*ptr` is before the call. -/
inductive AlignedCall
  | posixMemalign (ptr : BitVec 64)
  | memalign
  | alignedAlloc

def AlignedCall.run (config : Config) (align len : BitVec 64) (first : Nat)
    (heap : Heap) : AlignedCall → Except Stop Reply
  | .posixMemalign ptr => Libdislocator.posixMemalign config ptr align len first heap
  | .memalign => Libdislocator.memalign config align len first heap
  | .alignedAlloc => Libdislocator.alignedAlloc config align len first heap

/-- `len` bytes may be used from `ptr` on, in front of a guard page. -/
def Usable (heap : Heap) (ptr : BitVec 64) (len : Nat) : Prop :=
  ∃ guard, heap.pages guard = .noAccess ∧ ptr.toNat + len ≤ guard * pageSize ∧
    ∀ address, ptr.toNat ≤ address → address < guard * pageSize →
      heap.pages (address / pageSize) = .readWrite

/-- Whether a call reports success: `posix_memalign` by its value, the other ones
by a pointer that is not `NULL`. -/
def AlignedCall.Succeeds (reply : Reply) : AlignedCall → Prop
  | .posixMemalign _ => reply.error = 0
  | .memalign | .alignedAlloc => reply.ptr ≠ 0#64

/-- Success comes with an aligned block that is long enough, and where there is no
memory an error is reported.  A fatal error is reported before the program
ends. -/
def AlignedCall.Contract (align len : BitVec 64) (call : AlignedCall) :
    Except Stop Reply → Prop
  | .error .fatal => True
  | .error .divisionByZero => False
  | .ok reply =>
      (call.Succeeds reply → align.toNat ∣ reply.ptr.toNat ∧
        Usable reply.heap reply.ptr len.toNat) ∧
        (reply.ptr = 0#64 → ¬call.Succeeds reply)

section Conditions

variable (config : Config) (align len : BitVec 64) (first : Nat) (heap : Heap)

def blockLen : Nat := (roundedLen config (paddedLen align len)).toNat

/-- The request is within the limit, and `mmap` has room for it. -/
def Allocates : Prop :=
  Accepted config heap (paddedLen align len).toNat ∧
    Room heap first (1 + pagesFor (blockLen config align len))

/-- The padded length does not wrap, and the guard page is aligned, apart from
what `AFL_ALIGNED_ALLOC` rounds. -/
def Aligns : Prop :=
  len.toNat ≤ (paddedLen align len).toNat ∧
    align.toNat ∣ (first + pagesFor (blockLen config align len)) * pageSize -
      (blockLen config align len - (paddedLen align len).toNat)

/-- The condition on a call: its alignment is refused, or the block that is
allocated is aligned.  No other function than `posix_memalign` has to have
memory. -/
def AlignedCall.Meets : AlignedCall → Prop
  | .posixMemalign _ => ¬8 ∣ align.toNat ∨
      (len ≠ 0#64 ∧ align ≠ 0#64 ∧
        (Allocates config align len first heap → Aligns config align len first) ∧
        (¬Allocates config align len first heap → config.hardFail = true))
  | .memalign => ¬8 ∣ align.toNat ∨ len = 0#64 ∨
      (align ≠ 0#64 ∧ (Allocates config align len first heap →
        Aligns config align len first))
  | .alignedAlloc => align ≠ 0#64 ∧
      (¬8 ∣ align.toNat ∨ ¬align.toNat ∣ len.toNat ∨ len = 0#64 ∨
        (Allocates config align len first heap → Aligns config align len first))

end Conditions

section Blocks

variable {config : Config} {heap heap' : Heap} {align len : BitVec 64}
  {first : Nat}

theorem Held.usable_iff {block : Block} (held : Held config heap block)
    (count : Nat) :
    Usable heap block.ptr count ↔ count ≤ block.rlen config := by
  have ends := held.ends
  constructor
  · rintro ⟨guard, isGuard, before, accessible⟩
    have notBehind : guard ≤ block.first + block.pages config := by
      by_contra behind
      have reached := accessible
        ((block.first + block.pages config) * pageSize)
        (by omega) (Nat.mul_lt_mul_of_pos_right (by omega) (by decide))
      rw [Nat.mul_div_cancel _ (by decide), held.guard] at reached
      cases reached
    have below := Nat.mul_le_mul_right pageSize notBehind
    omega
  · intro inside
    refine ⟨block.first + block.pages config, held.guard, by omega, ?_⟩
    intro address from_ before
    exact (held.accessible_address (by omega) (by omega)).2

/-- The padded length, in which `size_t` may wrap. -/
theorem toNat_paddedLen (nonzero : align ≠ 0#64) :
    (paddedLen align len).toNat =
      if len.toNat % align.toNat = 0 then len.toNat
      else (len.toNat + (align.toNat - len.toNat % align.toNat)) % 2 ^ 64 := by
  have positive : 0 < align.toNat := by
    apply Nat.pos_of_ne_zero
    intro zero
    exact nonzero (BitVec.eq_of_toNat_eq zero)
  have isRem : (len % align).toNat = len.toNat % align.toNat := BitVec.toNat_umod
  have less := Nat.mod_lt len.toNat positive
  unfold paddedLen
  by_cases divides : len.toNat % align.toNat = 0
  · have zero : len % align = 0#64 := BitVec.eq_of_toNat_eq (isRem.trans divides)
    simp [zero, divides]
  · have remains : len % align ≠ 0#64 := by
      intro zero
      rw [zero] at isRem
      exact divides isRem.symm
    simp only [remains, divides, ne_eq, not_false_eq_true, if_true, if_false]
    rw [BitVec.toNat_add, BitVec.toNat_sub_of_le, isRem]
    rw [BitVec.le_def, isRem]
    exact Nat.le_of_lt less

theorem dvd_paddedLen (nonzero : align ≠ 0#64)
    (fits : len.toNat ≤ (paddedLen align len).toNat) :
    align.toNat ∣ (paddedLen align len).toNat := by
  have small := len.isLt
  have alignSmall := align.isLt
  rw [toNat_paddedLen nonzero] at fits ⊢
  split
  · rename_i divides
    exact Nat.dvd_of_mod_eq_zero divides
  · rename_i remains
    rw [if_neg remains] at fits
    have less : len.toNat % align.toNat ≤ len.toNat := Nat.mod_le _ _
    have inside : len.toNat + (align.toNat - len.toNat % align.toNat) < 2 ^ 64 := by
      by_contra wraps
      rw [Nat.mod_eq_sub_mod (Nat.le_of_not_lt wraps),
        Nat.mod_eq_of_lt (by omega)] at fits
      omega
    rw [Nat.mod_eq_of_lt inside]
    have positive : 0 < align.toNat := by
      apply Nat.pos_of_ne_zero
      intro zero
      exact nonzero (BitVec.eq_of_toNat_eq zero)
    have rest := Nat.mod_lt len.toNat positive
    have whole : len.toNat + (align.toNat - len.toNat % align.toNat) =
        align.toNat * (len.toNat / align.toNat + 1) := by
      have parts := Nat.div_add_mod len.toNat align.toNat
      rw [Nat.mul_add]
      omega
    rw [whole]
    exact Nat.dvd_mul_right _ _

theorem le_blockLen_iff (nonzero : align ≠ 0#64)
    (bound : (paddedLen align len).toNat + 2 ^ 20 ≤ 2 ^ 64) :
    len.toNat ≤ blockLen config align len ↔
      len.toNat ≤ (paddedLen align len).toNat := by
  obtain ⟨atLeast, atMost⟩ := roundedLen_bounds config (paddedLen align len) (by omega)
  refine ⟨fun inside => ?_, fun inside => Nat.le_trans inside atLeast⟩
  have small := len.isLt
  have alignSmall := align.isLt
  unfold blockLen at inside
  rw [toNat_paddedLen nonzero] at *
  split
  · exact Nat.le_refl _
  · rename_i remains
    rw [if_neg remains] at bound atMost
    rcases Nat.lt_or_ge len.toNat align.toNat with short | long
    · rw [Nat.mod_eq_of_lt short] at *
      omega
    · have less : len.toNat % align.toNat ≤ len.toNat := Nat.mod_le _ _
      omega

/-- Whether a call of `__dislocator_alloc` returns a block. -/
theorem tryDislocatorAlloc_spec
    (bound : config.maxMem.toNat + 2 ^ 20 ≤ 2 ^ 64) (first : Nat) :
    (Accepted config heap len.toNat ∧
        Room heap first (1 + pagesFor (roundedLen config len).toNat) →
      ∃ ret heap', tryDislocatorAlloc config len first heap = .ok (ret, heap') ∧
        ret ≠ 0#64 ∧ Allocated config heap ⟨ret, len, first⟩ heap') ∧
    (¬(Accepted config heap len.toNat ∧
        Room heap first (1 + pagesFor (roundedLen config len).toNat)) →
      tryDislocatorAlloc config len first heap =
        if config.hardFail then .error .fatal else .ok (0#64, heap)) := by
  by_cases accepted : Accepted config heap len.toNat
  · have limit : heap.totalMem ≤ config.maxMem := by
      rw [BitVec.le_def]
      unfold Accepted at accepted
      omega
    have small : len.toNat + 2 ^ 20 ≤ 2 ^ 64 := by
      unfold Accepted at accepted
      omega
    obtain ⟨_, atMost⟩ := roundedLen_bounds config len (by omega)
    obtain ⟨isLen, _⟩ := @alloc_addresses first (roundedLen config len) (by
      unfold pageSize
      omega)
    have within := (accepted_iff bound limit).mp accepted
    refine ⟨fun both => ?_, fun noRoom => ?_⟩
    · obtain ⟨ret, heap', allocates, nonzero, allocated⟩ :=
        (dislocatorAlloc_accepted bound limit accepted first).2 both.2
      refine ⟨ret, heap', ?_, nonzero, allocated⟩
      rw [tryDislocatorAlloc, if_neg within, mmap_room isLen both.2, allocates]
      rfl
    · have noRoom : ¬Room heap first _ := fun room => noRoom ⟨accepted, room⟩
      rw [tryDislocatorAlloc, if_neg within, mmap_noRoom isLen noRoom]
      rfl
  · refine ⟨fun both => absurd both.1 accepted, fun _ => ?_⟩
    have refused : config.maxMem < heap.totalMem + len ∨
        heap.totalMem + len < heap.totalMem := by
      by_cases limit : heap.totalMem ≤ config.maxMem
      · exact not_not.mp fun within =>
          accepted ((accepted_iff bound limit).mpr within)
      · rw [BitVec.le_def] at limit
        rw [BitVec.lt_def, BitVec.lt_def]
        omega
    rw [tryDislocatorAlloc, if_pos refused]

/-- A block that is allocated is aligned and long enough exactly where the
padded length does not wrap and the guard page is aligned. -/
theorem served_iff (bound : config.maxMem.toNat + 2 ^ 20 ≤ 2 ^ 64)
    (nonzero : align ≠ 0#64) {ret : BitVec 64}
    (allocated : Allocated config heap ⟨ret, paddedLen align len, first⟩ heap') :
    align.toNat ∣ ret.toNat ∧ Usable heap' ret len.toNat ↔
      Aligns config align len first := by
  have accepted : heap.totalMem.toNat + (paddedLen align len).toNat ≤
      config.maxMem.toNat := allocated.accepted
  have ends : ret.toNat + blockLen config align len =
      (first + pagesFor (blockLen config align len)) * pageSize :=
    allocated.held.ends
  have rounded : (paddedLen align len).toNat ≤ blockLen config align len :=
    allocated.held.rounded
  have usable : Usable heap' ret len.toNat ↔ len.toNat ≤ (paddedLen align len).toNat :=
    (allocated.held.usable_iff _).trans
      (le_blockLen_iff nonzero (by omega))
  rw [usable, and_comm]
  apply and_congr_right
  intro fits
  have same : (first + pagesFor (blockLen config align len)) * pageSize -
      (blockLen config align len - (paddedLen align len).toNat) =
      ret.toNat + (paddedLen align len).toNat := by omega
  rw [same]
  exact (Nat.dvd_add_iff_left (dvd_paddedLen nonzero fits))

theorem refused_iff (align : BitVec 64) :
    align % 2 ≠ 0#64 ∨ align % 8 ≠ 0#64 ↔ ¬8 ∣ align.toNat := by
  have two : align % 2 = 0#64 ↔ align.toNat % 2 = 0 := by
    rw [← BitVec.toNat_inj]
    simp
  have eight : align % 8 = 0#64 ↔ align.toNat % 8 = 0 := by
    rw [← BitVec.toNat_inj]
    simp
  rw [ne_eq, ne_eq, two, eight]
  omega

/-- A call of `posix_memalign` that gets to its allocation. -/
theorem posixMemalign_spec (bound : config.maxMem.toNat + 2 ^ 20 ≤ 2 ^ 64)
    (divides : 8 ∣ align.toNat) (asked : len ≠ 0#64) (nonzero : align ≠ 0#64)
    (ptr : BitVec 64) :
    (Allocates config align len first heap →
      ∃ reply, posixMemalign config ptr align len first heap = .ok reply ∧
        reply.error = 0 ∧ reply.ptr ≠ 0#64 ∧
        (align.toNat ∣ reply.ptr.toNat ∧ Usable reply.heap reply.ptr len.toNat ↔
          Aligns config align len first)) ∧
    (¬Allocates config align len first heap →
      posixMemalign config ptr align len first heap =
        if config.hardFail then .error .fatal else .ok ⟨0, 0#64, heap⟩) := by
  have known : ¬(align % 2 ≠ 0#64 ∨ align % 8 ≠ 0#64) := by
    rw [refused_iff]
    exact not_not.mpr divides
  obtain ⟨returns, fails⟩ :=
    @tryDislocatorAlloc_spec config heap (paddedLen align len) bound first
  unfold posixMemalign
  rw [if_neg known, if_neg asked, if_neg nonzero]
  refine ⟨fun allocates => ?_, fun fails' => ?_⟩
  · obtain ⟨ret, heap', call, found, allocated⟩ := returns allocates
    have served := served_iff bound nonzero allocated
    dsimp only
    rw [call, Except.map]
    dsimp only
    split
    · exact ⟨_, rfl, rfl, found, served⟩
    · exact ⟨_, rfl, rfl, found, served⟩
  · dsimp only
    rw [fails fails']
    cases config.hardFail <;> rfl

theorem posixMemalign_refused (refused : ¬8 ∣ align.toNat) (ptr : BitVec 64) :
    posixMemalign config ptr align len first heap = .ok ⟨einval, ptr, heap⟩ := by
  rw [posixMemalign, if_pos ((refused_iff align).mpr refused)]

theorem posixMemalign_empty (divides : 8 ∣ align.toNat) (ptr : BitVec 64) :
    posixMemalign config ptr align 0#64 first heap = .ok ⟨0, 0#64, heap⟩ := by
  rw [posixMemalign, if_neg fun refused =>
    (refused_iff align).mp refused divides]
  exact if_pos rfl

theorem posixMemalign_zero (asked : len ≠ 0#64) (ptr : BitVec 64) :
    posixMemalign config ptr 0#64 len first heap = .error .divisionByZero := by
  rw [posixMemalign, if_neg (by decide), if_neg asked, if_pos rfl]

section

variable (bound : config.maxMem.toNat + 2 ^ 20 ≤ 2 ^ 64)
include bound

/-- The two functions that report errors by `NULL` alone. -/
theorem memalign_contract_iff :
    AlignedCall.memalign.Contract align len
        (posixMemalign config 0#64 align len first heap) ↔
      AlignedCall.memalign.Meets config align len first heap := by
  simp only [AlignedCall.Meets]
  by_cases divides : 8 ∣ align.toNat
  · rw [or_iff_right (not_not.mpr divides)]
    by_cases asked : len = 0#64
    · subst asked
      rw [posixMemalign_empty divides]
      simp [AlignedCall.Contract, AlignedCall.Succeeds]
    · rw [or_iff_right asked]
      by_cases zero : align = 0#64
      · subst zero
        rw [posixMemalign_zero asked]
        simp [AlignedCall.Contract]
      · obtain ⟨returns, fails⟩ :=
          @posixMemalign_spec config heap align len first bound divides asked
            zero 0#64
        by_cases allocates : Allocates config align len first heap
        · obtain ⟨reply, call, _, found, served⟩ := returns allocates
          rw [call]
          simp [AlignedCall.Contract, AlignedCall.Succeeds, found, served,
            zero, allocates]
        · rw [fails allocates]
          cases config.hardFail <;>
            simp [AlignedCall.Contract, AlignedCall.Succeeds, zero, allocates]
  · rw [posixMemalign_refused divides]
    simp [AlignedCall.Contract, AlignedCall.Succeeds, divides]

theorem posixMemalign_contract_iff (ptr : BitVec 64) :
    (AlignedCall.posixMemalign ptr).Contract align len
        (posixMemalign config ptr align len first heap) ↔
      (AlignedCall.posixMemalign ptr).Meets config align len first heap := by
  simp only [AlignedCall.Meets]
  by_cases divides : 8 ∣ align.toNat
  · rw [or_iff_right (not_not.mpr divides)]
    by_cases asked : len = 0#64
    · subst asked
      rw [posixMemalign_empty divides]
      simp [AlignedCall.Contract, AlignedCall.Succeeds]
    · by_cases zero : align = 0#64
      · subst zero
        rw [posixMemalign_zero asked]
        simp [AlignedCall.Contract]
      · obtain ⟨returns, fails⟩ :=
          @posixMemalign_spec config heap align len first bound divides asked
            zero ptr
        by_cases allocates : Allocates config align len first heap
        · obtain ⟨reply, call, success, found, served⟩ := returns allocates
          rw [call]
          simp [AlignedCall.Contract, AlignedCall.Succeeds, success, found,
            served, asked, zero, allocates]
        · rw [fails allocates]
          cases config.hardFail <;>
            simp [AlignedCall.Contract, AlignedCall.Succeeds, asked, zero, allocates]
  · rw [posixMemalign_refused divides]
    simp [AlignedCall.Contract, AlignedCall.Succeeds, divides, einval]

/-- `aligned_alloc` refuses lengths that are not multiples of the alignment. -/
theorem alignedAlloc_contract_iff :
    AlignedCall.alignedAlloc.Contract align len
        (alignedAlloc config align len first heap) ↔
      AlignedCall.alignedAlloc.Meets config align len first heap := by
  simp only [AlignedCall.Meets]
  unfold alignedAlloc
  by_cases zero : align = 0#64
  · subst zero
    rw [if_pos rfl]
    exact iff_of_false id fun meets => meets.1 rfl
  · have multiple : len % align = 0#64 ↔ align.toNat ∣ len.toNat := by
      rw [← BitVec.toNat_inj, BitVec.toNat_umod, Nat.dvd_iff_mod_eq_zero]
      rfl
    rw [if_neg zero]
    by_cases divides : align.toNat ∣ len.toNat
    · rw [if_neg (not_not.mpr (multiple.mpr divides))]
      apply (memalign_contract_iff bound).trans
      simp [AlignedCall.Meets, zero, divides]
    · rw [if_pos fun remains => divides (multiple.mp remains)]
      simp [AlignedCall.Contract, AlignedCall.Succeeds, zero, divides]

end

end Blocks

/-- A call keeps the contract exactly under the condition. -/
theorem aligned_contract_iff {config : Config} {limitMb : Option (BitVec 64)}
    (accepted : dislocatorInit limitMb = some config.maxMem)
    (call : AlignedCall) (align len : BitVec 64) (first : Nat) (heap : Heap) :
    call.Contract align len (call.run config align len first heap) ↔
      call.Meets config align len first heap := by
  have bound := dislocatorInit_bound accepted
  cases call with
  | posixMemalign ptr => exact posixMemalign_contract_iff bound ptr
  | memalign => exact memalign_contract_iff bound
  | alignedAlloc => exact alignedAlloc_contract_iff bound

/-- 10 bytes with an alignment of 16, at page 1. -/
theorem aligned_contract_iff_tenBytes :
    (AlignedCall.posixMemalign 0#64).Contract 16#64 10#64
        ((AlignedCall.posixMemalign 0#64).run (plainConfig 0x40000000#64) 16#64
          10#64 1 emptyStart.heap) ↔
      (AlignedCall.posixMemalign 0#64).Meets (plainConfig 0x40000000#64) 16#64
        10#64 1 emptyStart.heap :=
  @aligned_contract_iff (plainConfig 0x40000000#64) none rfl
    (.posixMemalign 0#64) 16#64 10#64 1 emptyStart.heap

/-- There is no memory, and `posix_memalign` reports success. -/
theorem posixMemalign_null :
    posixMemalign (plainConfig 0x40000000#64) 0#64 16#64 0x40000001#64 1
        emptyStart.heap = .ok ⟨0, 0#64, emptyStart.heap⟩ ∧
      ¬(AlignedCall.posixMemalign 0#64).Contract 16#64 0x40000001#64
        ((AlignedCall.posixMemalign 0#64).run (plainConfig 0x40000000#64) 16#64
          0x40000001#64 1 emptyStart.heap) := by
  have returns : posixMemalign (plainConfig 0x40000000#64) 0#64 16#64
      0x40000001#64 1 emptyStart.heap = .ok ⟨0, 0#64, emptyStart.heap⟩ := rfl
  refine ⟨returns, ?_⟩
  rw [AlignedCall.run, returns]
  exact fun contract => contract.2 rfl rfl

end AFLPlusPlus.Libdislocator
