import AFLPlusPlus.Config
import AFLPlusPlus.Forkserver.Options

/-!
# How target and fuzzer agree on a map size

`__afl_map_shm` derives the map size of the target from `__afl_final_loc`, the
options word carries it over, and `afl_fsrv_start` rounds it up to a multiple
of 64.  Both sides may refuse instead.
-/

namespace AFLPlusPlus

def fsErrorMapSize : BitVec 32 := 1#32

/-- What `__afl_map_shm` finds around it when it runs under a fuzzer. -/
structure MapShmSettings where
  /-- `atoi` of `AFL_MAP_SIZE`, when the variable is set -/
  aflMapSize : Option (BitVec 32)
  /-- built with `USEMMAP` -/
  useMmap : Bool

/-- `__afl_map_shm` with a shared memory id: the `__afl_map_size` it leaves, or
the error it sends before it exits. -/
def aflMapShm (settings : MapShmSettings) (finalLoc : BitVec 32) :
    Except (BitVec 32) (BitVec 32) :=
  let mapSize := if finalLoc ≠ 0#32 then finalLoc else defaultMapSize
  let val := settings.aflMapSize.getD 0#32
  if finalLoc ≠ 0#32 ∧ defaultMapSize < finalLoc ∧ val < finalLoc ∧
      fsOptMaxMapsize < finalLoc then
    .error fsErrorMapSize
  else if settings.useMmap = false ∧ mapSize ≠ 0#32 ∧ defaultMapSize < mapSize ∧
      (settings.aflMapSize = none ∨ val < defaultMapSize) then
    .error fsErrorMapSize
  else .ok mapSize

/-- The word `send_forkserver_error` writes. -/
def forkserverError (error : BitVec 32) : BitVec 32 :=
  fsOptError ||| ((error &&& 0x0000ffff#32) <<< 8)

/-- The rounding of `afl_fsrv_start`. -/
def roundMapSize (tmpMapSize : BitVec 32) : BitVec 32 :=
  if tmpMapSize % 64#32 ≠ 0#32 then ((tmpMapSize + 63#32) >>> 6) <<< 6
  else tmpMapSize

/-- The `FS_OPT_MAPSIZE` branch of `afl_fsrv_start`: the map size it settles
on, unless the target asks for more than the fuzzer is set up with. -/
def takeMapSize (status mapSize : BitVec 32) : Option (BitVec 32) :=
  let mapSize := if mapSize = 0#32 then defaultMapSize else mapSize
  let tmpMapSize := roundMapSize (fsOptGetMapsize status)
  if mapSize < tmpMapSize then none else some tmpMapSize

/-- What `afl_fsrv_start` makes of the first word of the target: its map size,
or nothing when it ends with an error. -/
def fsrvMapSize (supportShmemFuzz : Bool) (status mapSize : BitVec 32) :
    Option (BitVec 32) :=
  if hasOption status fsOptError then none
  else if hasOption status fsOptEnabled then
    let status :=
      if hasOption status fsOptOldAflppWorkaround then
        status &&& 0xf0ffffff#32
      else status
    if hasOption status fsOptShdmemFuzz ∧ supportShmemFuzz = false then none
    else if hasOption status fsOptMapsize then takeMapSize status mapSize
    else some mapSize
  else some mapSize

theorem roundMapSize_toNat {size : BitVec 32}
    (bounded : size ≤ fsOptMaxMapsize) :
    (roundMapSize size).toNat = (size.toNat + 63) / 64 * 64 := by
  have limit : size.toNat ≤ 8388608 := by
    have value : fsOptMaxMapsize.toNat = 8388608 := by decide
    rw [BitVec.le_def, value] at bounded
    exact bounded
  unfold roundMapSize
  split
  · rw [BitVec.toNat_shiftLeft, BitVec.toNat_ushiftRight, BitVec.toNat_add,
      Nat.shiftLeft_eq, Nat.shiftRight_eq_div_pow]
    simp
    omega
  · rename_i exact
    rw [not_not] at exact
    have divisible := congrArg BitVec.toNat exact
    simp at divisible
    omega

/-- The size the fuzzer takes from a target with its own map size. -/
theorem fsrvMapSize_statusForFsrv (target : TargetOptions)
    (supportShmemFuzz : Bool) (mapSize : BitVec 32)
    (positive : target.mapSize ≠ 0#32) :
    fsrvMapSize supportShmemFuzz target.statusForFsrv mapSize =
      if target.sharedmemFuzzing = true ∧ supportShmemFuzz = false then none
      else if target.mapSize ≤ fsOptMaxMapsize then
        if (if mapSize = 0#32 then defaultMapSize else mapSize) <
            roundMapSize target.mapSize then none
        else some (roundMapSize target.mapSize)
      else some mapSize := by
  unfold fsrvMapSize takeMapSize
  by_cases bounded : target.mapSize ≤ fsOptMaxMapsize
  · simp [bounded, target.getMapsize_statusForFsrv positive bounded]
  · by_cases shared : target.sharedmemFuzzing = true
    · simp [bounded, shared]
    · simp [bounded, shared]

end AFLPlusPlus
