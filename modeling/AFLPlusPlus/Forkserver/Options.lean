import Mathlib.Algebra.Order.Ring.Nat

/-!
# The options word of the fork server

The first word a target sends through the status pipe carries its options, the
answer of the fuzzer carries the ones it accepts.  The macros are those of
`types.h`; the word itself is put together by `__afl_start_forkserver`.
-/

namespace AFLPlusPlus

def fsOptError : BitVec 32 := 0xf800008f#32
def fsOptEnabled : BitVec 32 := 0x80000001#32
def fsOptMapsize : BitVec 32 := 0x40000000#32
def fsOptSnapshot : BitVec 32 := 0x20000000#32
def fsOptAutodict : BitVec 32 := 0x10000000#32
def fsOptShdmemFuzz : BitVec 32 := 0x01000000#32
def fsOptOldAflppWorkaround : BitVec 32 := 0x0f000000#32

/-- `FS_OPT_MAX_MAPSIZE`: 8388608. -/
def fsOptMaxMapsize : BitVec 32 := (0x00fffffe#32 >>> 1) + 1#32

/-- `FS_OPT_GET_MAPSIZE(x)` -/
def fsOptGetMapsize (x : BitVec 32) : BitVec 32 := ((x &&& 0x00fffffe#32) >>> 1) + 1#32

/-- `FS_OPT_SET_MAPSIZE(x)` -/
def fsOptSetMapsize (x : BitVec 32) : BitVec 32 :=
  if x ≤ 1#32 ∨ fsOptMaxMapsize < x then 0#32 else (x - 1#32) <<< 1

/-- Every bit of the option is set: `(word & option) == option`. -/
def hasOption (word option : BitVec 32) : Bool := decide (word &&& option = option)

/-- What the target brings to the handshake: `__afl_map_size`,
`__afl_sharedmem_fuzzing` and the dictionary the instrumentation found. -/
structure TargetOptions where
  mapSize : BitVec 32
  sharedmemFuzzing : Bool
  /-- `__afl_dictionary`, `__afl_dictionary_len` bytes of it -/
  dictionary : List (BitVec 8)
  /-- `__afl_dictionary_len` is a `u32` -/
  dictionaryFits : dictionary.length < 2 ^ 32

/-- `__afl_dictionary_len && __afl_dictionary` -/
def TargetOptions.hasDictionary (target : TargetOptions) : Bool :=
  !target.dictionary.isEmpty

/-- `status_for_fsrv` of `__afl_start_forkserver`. -/
def TargetOptions.statusForFsrv (target : TargetOptions) : BitVec 32 :=
  let status :=
    if target.mapSize ≤ fsOptMaxMapsize then
      fsOptSetMapsize target.mapSize ||| fsOptMapsize
    else 0#32
  let status :=
    if target.hasDictionary then status ||| fsOptAutodict else status
  let status :=
    if target.sharedmemFuzzing then status ||| fsOptShdmemFuzz else status
  if status ≠ 0#32 then status ||| fsOptEnabled else status

private theorem mapsize_high_bits {x : BitVec 32} (positive : x ≠ 0#32)
    (bounded : x ≤ fsOptMaxMapsize) {bit : Nat} (high : 23 ≤ bit) :
    (x - 1#32).getLsbD bit = false := by
  have one : 1#32 ≤ x := by
    rw [BitVec.le_def]
    have nonzero : x.toNat ≠ 0 := fun zero =>
      positive (BitVec.eq_of_toNat_eq (by simpa using zero))
    simp
    omega
  have value : (x - 1#32).toNat < 2 ^ 23 := by
    rw [BitVec.toNat_sub_of_le one]
    rw [BitVec.le_def] at bounded one
    have limit : fsOptMaxMapsize.toNat = 2 ^ 23 := by decide
    simp at one ⊢
    omega
  rw [BitVec.getLsbD]
  exact Nat.testBit_lt_two_pow
    (Nat.lt_of_lt_of_le value (Nat.pow_le_pow_right (by decide) high))

theorem fsOptSetMapsize_of_le {x : BitVec 32} (positive : x ≠ 0#32)
    (bounded : x ≤ fsOptMaxMapsize) :
    fsOptSetMapsize x = (x - 1#32) <<< 1 := by
  unfold fsOptSetMapsize
  by_cases one : x = 1#32
  · rw [one]
    rfl
  · rw [if_neg]
    rintro (small | large)
    · rw [BitVec.le_def] at small
      have nonzero : x.toNat ≠ 0 := fun zero =>
        positive (BitVec.eq_of_toNat_eq (by simpa using zero))
      have notOne : x.toNat ≠ 1 := fun isOne =>
        one (BitVec.eq_of_toNat_eq (by simpa using isOne))
      simp at small
      omega
    · exact absurd large (BitVec.not_lt.mpr bounded)

theorem fsOptSetMapsize_and_options (x : BitVec 32) :
    fsOptSetMapsize x &&& 0xff000001#32 = 0#32 := by
  by_cases admissible : x ≠ 0#32 ∧ x ≤ fsOptMaxMapsize
  · obtain ⟨positive, bounded⟩ := admissible
    have optionBits : ∀ bit < 32, (0xff000001#32).getLsbD bit = true →
        bit = 0 ∨ 24 ≤ bit := by decide
    rw [fsOptSetMapsize_of_le positive bounded]
    apply BitVec.eq_of_getLsbD_eq
    intro bit inside
    rw [BitVec.getLsbD_and, BitVec.getLsbD_shiftLeft, BitVec.getLsbD_zero]
    cases selected : (0xff000001#32).getLsbD bit with
    | false => simp
    | true =>
        rcases optionBits bit inside selected with zero | high
        · simp [zero]
        · simp [mapsize_high_bits positive bounded (show 23 ≤ bit - 1 by omega)]
  · have none : fsOptSetMapsize x = 0#32 := by
      rw [fsOptSetMapsize, if_pos]
      by_cases zero : x = 0#32
      · exact .inl (by rw [zero]; decide)
      · exact .inr (BitVec.not_le.mp fun bounded =>
          admissible ⟨zero, bounded⟩)
    rw [none]
    decide

theorem fsOptGetMapsize_set {x options : BitVec 32} (positive : x ≠ 0#32)
    (bounded : x ≤ fsOptMaxMapsize)
    (apart : options &&& 0x00fffffe#32 = 0#32) :
    fsOptGetMapsize (fsOptSetMapsize x ||| options) = x := by
  have sizeBits : ∀ bit < 23, (0x00fffffe#32).getLsbD (1 + bit) = true := by
    decide
  have field : ((fsOptSetMapsize x ||| options) &&& 0x00fffffe#32) >>> 1 =
      x - 1#32 := by
    rw [fsOptSetMapsize_of_le positive bounded, BitVec.and_or_distrib_right,
      apart, BitVec.or_zero]
    apply BitVec.eq_of_getLsbD_eq
    intro bit inside
    rw [BitVec.getLsbD_ushiftRight, BitVec.getLsbD_and, BitVec.getLsbD_shiftLeft]
    by_cases low : bit < 23
    · rw [sizeBits bit low]
      simp
      omega
    · rw [mapsize_high_bits positive bounded (Nat.le_of_not_lt low)]
      rw [Nat.add_sub_cancel_left,
        mapsize_high_bits positive bounded (Nat.le_of_not_lt low)]
      simp
  rw [fsOptGetMapsize, field, BitVec.sub_add_cancel]

/-- The options of a target, by what it brings along. -/
def announced (mapsize dictionary sharedmem : Bool) : BitVec 32 :=
  (if mapsize then fsOptMapsize else 0#32) |||
    (if dictionary then fsOptAutodict else 0#32) |||
    (if sharedmem then fsOptShdmemFuzz else 0#32) |||
    if mapsize || dictionary || sharedmem then fsOptEnabled else 0#32

/-- The option bits of the word of a target. -/
def TargetOptions.optionBits (target : TargetOptions) : BitVec 32 :=
  announced (decide (target.mapSize ≤ fsOptMaxMapsize)) target.hasDictionary
    target.sharedmemFuzzing

theorem TargetOptions.statusForFsrv_eq (target : TargetOptions) :
    target.statusForFsrv =
      (if target.mapSize ≤ fsOptMaxMapsize then
        fsOptSetMapsize target.mapSize else 0#32) ||| target.optionBits := by
  have nonzero : ∀ word option : BitVec 32, option ≠ 0#32 →
      word ||| option ≠ 0#32 := by
    intro word option isOption zero
    exact isOption (BitVec.or_eq_zero_iff.mp zero).2
  unfold statusForFsrv optionBits announced
  have mapsize := nonzero (fsOptSetMapsize target.mapSize) fsOptMapsize
    (by decide)
  have autodict := fun word => nonzero word fsOptAutodict (by decide)
  have shdmem := fun word => nonzero word fsOptShdmemFuzz (by decide)
  have autodictAlone : fsOptAutodict ≠ 0#32 := by decide
  have shdmemAlone : fsOptShdmemFuzz ≠ 0#32 := by decide
  by_cases bounded : target.mapSize ≤ fsOptMaxMapsize <;>
    cases target.hasDictionary <;> cases target.sharedmemFuzzing <;>
    simp [bounded, mapsize, autodict, shdmem, autodictAlone, shdmemAlone,
      BitVec.or_assoc]

theorem TargetOptions.hasOption_statusForFsrv (target : TargetOptions)
    {option : BitVec 32} (isOption : option &&& 0xff000001#32 = option) :
    hasOption target.statusForFsrv option = hasOption target.optionBits option := by
  have apart : fsOptSetMapsize target.mapSize &&& option = 0#32 := by
    rw [← isOption, BitVec.and_comm option, ← BitVec.and_assoc,
      fsOptSetMapsize_and_options, BitVec.zero_and]
  rw [hasOption, hasOption, target.statusForFsrv_eq]
  split
  · rw [BitVec.and_or_distrib_right, apart, BitVec.zero_or]
  · rw [BitVec.zero_or]

theorem announced_options : ∀ mapsize dictionary sharedmem : Bool,
    let word := announced mapsize dictionary sharedmem
    hasOption word fsOptMapsize = mapsize ∧ hasOption word fsOptAutodict = dictionary ∧
      hasOption word fsOptShdmemFuzz = sharedmem ∧
      hasOption word fsOptEnabled = (mapsize || dictionary || sharedmem) ∧
      hasOption word fsOptSnapshot = false ∧
      hasOption word fsOptOldAflppWorkaround = false ∧
      word &&& 0x00fffffe#32 = 0#32 := by
  decide

section Announced

variable (target : TargetOptions)

@[simp] theorem TargetOptions.statusForFsrv_mapsize :
    hasOption target.statusForFsrv fsOptMapsize =
      decide (target.mapSize ≤ fsOptMaxMapsize) := by
  rw [hasOption_statusForFsrv _ (by decide)]
  exact (announced_options _ _ _).1

@[simp] theorem TargetOptions.statusForFsrv_autodict :
    hasOption target.statusForFsrv fsOptAutodict = target.hasDictionary := by
  rw [hasOption_statusForFsrv _ (by decide)]
  exact (announced_options _ _ _).2.1

@[simp] theorem TargetOptions.statusForFsrv_shdmem :
    hasOption target.statusForFsrv fsOptShdmemFuzz = target.sharedmemFuzzing := by
  rw [hasOption_statusForFsrv _ (by decide)]
  exact (announced_options _ _ _).2.2.1

@[simp] theorem TargetOptions.statusForFsrv_enabled :
    hasOption target.statusForFsrv fsOptEnabled =
      (decide (target.mapSize ≤ fsOptMaxMapsize) || target.hasDictionary ||
        target.sharedmemFuzzing) := by
  rw [hasOption_statusForFsrv _ (by decide)]
  exact (announced_options _ _ _).2.2.2.1

@[simp] theorem TargetOptions.statusForFsrv_snapshot :
    hasOption target.statusForFsrv fsOptSnapshot = false := by
  rw [hasOption_statusForFsrv _ (by decide)]
  exact (announced_options _ _ _).2.2.2.2.1

@[simp] theorem TargetOptions.statusForFsrv_workaround :
    hasOption target.statusForFsrv fsOptOldAflppWorkaround = false := by
  rw [hasOption_statusForFsrv _ (by decide)]
  exact (announced_options _ _ _).2.2.2.2.2.1

@[simp] theorem TargetOptions.statusForFsrv_error :
    hasOption target.statusForFsrv fsOptError = false := by
  by_contra found
  rw [Bool.not_eq_false, hasOption, decide_eq_true_iff] at found
  have part : fsOptError &&& fsOptSnapshot = fsOptSnapshot := by decide
  have snapshot : hasOption target.statusForFsrv fsOptSnapshot = true := by
    rw [hasOption, decide_eq_true_iff, ← part, ← BitVec.and_assoc, found]
  rw [target.statusForFsrv_snapshot] at snapshot
  exact Bool.noConfusion snapshot

theorem TargetOptions.getMapsize_statusForFsrv
    (positive : target.mapSize ≠ 0#32)
    (bounded : target.mapSize ≤ fsOptMaxMapsize) :
    fsOptGetMapsize target.statusForFsrv = target.mapSize := by
  rw [target.statusForFsrv_eq, if_pos bounded]
  exact fsOptGetMapsize_set positive bounded
    (announced_options _ _ _).2.2.2.2.2.2

end Announced

end AFLPlusPlus
