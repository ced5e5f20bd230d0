import AFLPlusPlus.Forkserver.MapSize
import AFLPlusPlus.Instrumentation.LTOPass

/-!
# Edge ids as indices of the coverage map

The pass stores a rounded id in `__afl_final_loc`; the runtime takes it for the
size of the map, announces it, and the fuzzer rounds once more.  An id is a
valid index of the map only if it is smaller than what comes out in the end.
-/

namespace AFLPlusPlus

/-- A run of the pass. -/
structure Instrumentation where
  /-- `map_addr`, unless it is 0 -/
  mapAddr : Option (BitVec 64)
  /-- `AFL_LLVM_LTO_STARTID` -/
  startId : BitVec 32
  functions : List Function

namespace Instrumentation

variable (run : Instrumentation)

def state : PassState := instrumentModule run.mapAddr run.startId run.functions

/-- `afl_global_id` when the pass is done. -/
def lastId : BitVec 32 := run.startId + BitVec.ofNat 32 (idsOfModule run.functions)

end Instrumentation

/-- The start of an instrumented target under a fuzzer. -/
structure Startup where
  settings : MapShmSettings
  sharedmemFuzzing : Bool
  dictionary : List (BitVec 8)
  dictionaryFits : dictionary.length < 2 ^ 32
  supportShmemFuzz : Bool
  /-- `fsrv->map_size` before the fork server is started -/
  mapSize : BitVec 32

namespace Startup

variable (startup : Startup)

/-- The first word of the target. -/
def hello (finalLoc : BitVec 32) : BitVec 32 :=
  match aflMapShm startup.settings finalLoc with
  | .error error => forkserverError error
  | .ok mapSize =>
      TargetOptions.statusForFsrv
        { mapSize
          sharedmemFuzzing := startup.sharedmemFuzzing
          dictionary := startup.dictionary
          dictionaryFits := startup.dictionaryFits }

/-- The map size the fuzzer ends up with, unless one of the sides refuses. -/
def mapSizeInUse (finalLoc : BitVec 32) : Option (BitVec 32) :=
  fsrvMapSize startup.supportShmemFuzz (startup.hello finalLoc)
    startup.mapSize

end Startup

/-- The promise about the ids of a module: they are distinct, the profile names
for every block the id its counter has, and every id is an index of the map. -/
def IdsSound (run : Instrumentation) (startup : Startup) : Prop :=
  run.state.ids.Nodup ∧
    (∀ block id, ⟨block, id⟩ ∈ run.state.basicBlocks ↔
      .counter block run.mapAddr id ∈ run.state.emitted) ∧
    (∀ block first second, ⟨block, first⟩ ∈ run.state.basicBlocks →
      ⟨block, second⟩ ∈ run.state.basicBlocks → first = second) ∧
    ∀ size, startup.mapSizeInUse (writeLoc run.state.aflGlobalId) = some size →
      ∀ id ∈ run.state.ids, id < size

def runtimeMapSize (finalLoc : BitVec 32) : BitVec 32 :=
  if finalLoc ≠ 0#32 then finalLoc else defaultMapSize

/-- The target or the fuzzer refuses a module of this final location: its map
is larger than the target was told with `AFL_MAP_SIZE`, larger than the fuzzer
is set up for, or the fuzzer cannot share test cases. -/
def Startup.Refuses (startup : Startup) (finalLoc : BitVec 32) : Prop :=
  let size := runtimeMapSize finalLoc
  let val := startup.settings.aflMapSize.getD 0#32
  let own := if startup.mapSize = 0#32 then defaultMapSize else startup.mapSize
  (fsOptMaxMapsize < size ∧ val < size) ∨
    (startup.settings.useMmap = false ∧ defaultMapSize < size ∧ val < defaultMapSize) ∨
    (startup.sharedmemFuzzing = true ∧ startup.supportShmemFuzz = false) ∨
    (size ≤ fsOptMaxMapsize ∧ own < roundMapSize size)

/-- The last id stays inside the map: the ids do not wrap round, nor does the
rounding, and the last id is no positive multiple of 64.  Sizes beyond the
options word are not announced; there the fuzzer's own size has to do. -/
def IdsFit (run : Instrumentation) (startup : Startup) : Prop :=
  (run.startId + 1#32).toNat + (idsOfModule run.functions - 1) ≤ 2 ^ 32 - 8 ∧
    if run.lastId ≤ fsOptMaxMapsize then
      64 ∣ run.lastId.toNat → run.lastId = 0#32
    else run.lastId < startup.mapSize

theorem runtimeMapSize_ne_zero (finalLoc : BitVec 32) :
    runtimeMapSize finalLoc ≠ 0#32 := by
  unfold runtimeMapSize
  split
  · assumption
  · decide

/-- The two checks of `__afl_map_shm` in terms of the size it derives. -/
theorem aflMapShm_eq (settings : MapShmSettings) (finalLoc : BitVec 32) :
    aflMapShm settings finalLoc =
      if (fsOptMaxMapsize < runtimeMapSize finalLoc ∧
          settings.aflMapSize.getD 0#32 < runtimeMapSize finalLoc) ∨
        (settings.useMmap = false ∧ defaultMapSize < runtimeMapSize finalLoc ∧
          settings.aflMapSize.getD 0#32 < defaultMapSize) then
        .error fsErrorMapSize
      else .ok (runtimeMapSize finalLoc) := by
  have unset : (settings.aflMapSize = none ∨
      settings.aflMapSize.getD 0#32 < defaultMapSize) ↔
      settings.aflMapSize.getD 0#32 < defaultMapSize := by
    constructor
    · rintro (none | small)
      · rw [none]
        decide
      · exact small
    · exact .inr
  have default : ¬fsOptMaxMapsize < defaultMapSize := by decide
  have large : ∀ size, fsOptMaxMapsize < size → defaultMapSize < size := by
    intro size above
    exact BitVec.lt_trans (by decide) above
  have nonzero := runtimeMapSize_ne_zero finalLoc
  have same : (if finalLoc ≠ 0#32 then finalLoc else defaultMapSize) =
    runtimeMapSize finalLoc := rfl
  unfold aflMapShm
  simp only [unset]
  rw [same]
  by_cases located : finalLoc = 0#32
  · have size : runtimeMapSize finalLoc = defaultMapSize := by
      rw [runtimeMapSize, located]
      rfl
    rw [located] at size ⊢
    simp [size, default]
  · have size : runtimeMapSize finalLoc = finalLoc := by
      rw [runtimeMapSize, if_pos located]
    rw [size]
    by_cases above : fsOptMaxMapsize < finalLoc
    · simp [located, above, large finalLoc above, ite_or]
    · simp [located, above]

theorem fsrvMapSize_forkserverError (supportShmemFuzz : Bool)
    (error mapSize : BitVec 32) :
    fsrvMapSize supportShmemFuzz (forkserverError error) mapSize = none := by
  have isError : hasOption (forkserverError error) fsOptError = true := by
    rw [hasOption, decide_eq_true_iff, forkserverError,
      BitVec.and_or_distrib_right, BitVec.and_self]
    apply BitVec.eq_of_getLsbD_eq
    intro bit _
    rw [BitVec.getLsbD_or, BitVec.getLsbD_and]
    cases fsOptError.getLsbD bit <;> simp
  rw [fsrvMapSize, if_pos isError]

/-- The size in use when neither side refuses. -/
def sizeInUse (finalLoc mapSize : BitVec 32) : BitVec 32 :=
  if runtimeMapSize finalLoc ≤ fsOptMaxMapsize then
    roundMapSize (runtimeMapSize finalLoc)
  else mapSize

theorem Startup.mapSizeInUse_eq_some (startup : Startup)
    (finalLoc size : BitVec 32) :
    startup.mapSizeInUse finalLoc = some size ↔
      ¬startup.Refuses finalLoc ∧ size = sizeInUse finalLoc startup.mapSize := by
  unfold mapSizeInUse hello Refuses sizeInUse
  rw [aflMapShm_eq]
  split
  · rename_i error equality
    rw [fsrvMapSize_forkserverError]
    split at equality
    · rename_i refused
      constructor
      · intro none
        cases none
      · rintro ⟨accepted, _⟩
        rcases refused with large | unmapped
        · exact absurd (.inl large) accepted
        · exact absurd (.inr (.inl unmapped)) accepted
    · cases equality
  · rename_i mapSize equality
    split at equality
    · cases equality
    · rename_i accepted
      cases equality
      rw [fsrvMapSize_statusForFsrv _ _ _ (runtimeMapSize_ne_zero finalLoc)]
      dsimp only
      split
      · rename_i shared
        simp [shared]
      · rename_i shared
        by_cases bounded : runtimeMapSize finalLoc ≤ fsOptMaxMapsize
        · rw [if_pos bounded, if_pos bounded]
          by_cases tooLarge : (if startup.mapSize = 0#32 then defaultMapSize
              else startup.mapSize) < roundMapSize (runtimeMapSize finalLoc)
          · simp [tooLarge, bounded]
          · grind
        · rw [if_neg bounded, if_neg bounded]
          grind

theorem writeLoc_toNat {id : BitVec 32} (bounded : id.toNat ≤ 2 ^ 32 - 8) :
    (writeLoc id).toNat = (id.toNat + 7) / 8 * 8 := by
  unfold writeLoc
  split
  · rename_i inexact
    have remainder : id.toNat % 8 ≠ 0 := by
      intro zero
      apply inexact
      apply BitVec.eq_of_toNat_eq
      simpa using zero
    rw [BitVec.toNat_shiftLeft, BitVec.toNat_ushiftRight, BitVec.toNat_add,
      Nat.shiftLeft_eq, Nat.shiftRight_eq_div_pow]
    simp
    omega
  · rename_i exact
    rw [not_not] at exact
    have divisible := congrArg BitVec.toNat exact
    simp at divisible
    omega

theorem writeLoc_overflow {id : BitVec 32} (large : 2 ^ 32 - 8 < id.toNat) :
    writeLoc id = 0#32 := by
  have bounded := id.isLt
  unfold writeLoc
  rw [if_pos]
  · apply BitVec.eq_of_toNat_eq
    rw [BitVec.toNat_shiftLeft, BitVec.toNat_ushiftRight, BitVec.toNat_add,
      Nat.shiftLeft_eq, Nat.shiftRight_eq_div_pow]
    simp
    omega
  · intro exact
    have divisible := congrArg BitVec.toNat exact
    simp at divisible
    omega

private theorem maxMapsize_toNat : fsOptMaxMapsize.toNat = 8388608 := by
  decide

/-- Where the counter has not overflowed, the last id lies inside the map
unless it is a positive multiple of 64. -/
theorem last_lt_sizeInUse_iff (last mapSize : BitVec 32)
    (bounded : last.toNat ≤ 2 ^ 32 - 8) :
    last < sizeInUse (writeLoc last) mapSize ↔
      if last ≤ fsOptMaxMapsize then 64 ∣ last.toNat → last = 0#32
      else last < mapSize := by
  have location := writeLoc_toNat bounded
  unfold sizeInUse
  by_cases zero : last = 0#32
  · have size : runtimeMapSize (writeLoc 0#32) = defaultMapSize := by decide
    have inside : 0#32 < roundMapSize defaultMapSize := by decide
    rw [zero, size, if_pos (by decide), if_pos (by decide)]
    exact ⟨fun _ _ => rfl, fun _ => inside⟩
  · have nonzero : last.toNat ≠ 0 := fun isZero =>
      zero (BitVec.eq_of_toNat_eq (by simpa using isZero))
    have size : runtimeMapSize (writeLoc last) = writeLoc last := by
      rw [runtimeMapSize, if_pos]
      intro isZero
      rw [isZero] at location
      simp at location
      omega
    rw [size]
    by_cases announced : last ≤ fsOptMaxMapsize
    · have small : writeLoc last ≤ fsOptMaxMapsize := by
        rw [BitVec.le_def, maxMapsize_toNat] at announced ⊢
        omega
      rw [if_pos small, if_pos announced, BitVec.lt_def,
        roundMapSize_toNat small, location]
      simp only [zero, imp_false]
      omega
    · have large : ¬writeLoc last ≤ fsOptMaxMapsize := by
        rw [BitVec.le_def, maxMapsize_toNat] at announced ⊢
        omega
      rw [if_neg large, if_neg announced]

section Module

variable (run : Instrumentation) (startup : Startup)

theorem Instrumentation.ids_eq :
    run.state.ids = idsFrom run.startId (idsOfModule run.functions) ∧
      run.state.aflGlobalId = run.lastId := by
  obtain ⟨emissions, handsOut, length, _⟩ :=
    instrumentModule_numbers run.mapAddr run.startId run.functions
  have emitted := handsOut.emitted
  have ids := handsOut.ids
  have globalId := handsOut.aflGlobalId
  rw [length] at ids globalId
  rw [List.nil_append] at emitted
  constructor
  · rw [PassState.ids, Instrumentation.state, emitted, ids]
  · exact globalId

theorem Instrumentation.profile_eq :
    (∀ block id, ⟨block, id⟩ ∈ run.state.basicBlocks ↔
      .counter block run.mapAddr id ∈ run.state.emitted) ∧
    ∀ block first second, ⟨block, first⟩ ∈ run.state.basicBlocks →
      ⟨block, second⟩ ∈ run.state.basicBlocks → first = second := by
  obtain ⟨emissions, handsOut, _, names⟩ :=
    instrumentModule_numbers run.mapAddr run.startId run.functions
  have emitted := handsOut.emitted
  have basicBlocks := handsOut.basicBlocks
  rw [List.nil_append] at emitted basicBlocks
  have distinct : (run.state.basicBlocks.map AFLVBasicBlock.block).Nodup := by
    rw [Instrumentation.state, basicBlocks, names]
    exact instrumentedBlocks_nodup run.functions
  constructor
  · intro block id
    rw [Instrumentation.state, basicBlocks, emitted]
    constructor
    · intro member
      obtain ⟨emission, inside, entry⟩ := List.mem_filterMap.mp member
      cases emission with
      | operand => cases entry
      | counter name address number =>
          cases entry
          rwa [← handsOut.addresses _ _ _ inside]
    · intro member
      exact List.mem_filterMap.mpr ⟨_, member, rfl⟩
  · intro block first second firstMember secondMember
    have same := List.inj_on_of_nodup_map distinct firstMember secondMember rfl
    exact (AFLVBasicBlock.mk.inj same).2

/-- Every id is an index of a map of this size exactly when the ids have not
wrapped round and the last one is. -/
theorem idsFrom_lt_iff (startId size : BitVec 32) {count : Nat}
    (positive : 0 < count) :
    (∀ id ∈ idsFrom startId count, id < size) ↔
      (startId + 1#32).toNat + (count - 1) < 2 ^ 32 ∧
        startId + BitVec.ofNat 32 count < size := by
  have first := (startId + 1#32).isLt
  have value : ∀ index, (startId + 1#32).toNat + index < 2 ^ 32 →
      (startId + 1#32 + BitVec.ofNat 32 index).toNat =
        (startId + 1#32).toNat + index := by
    intro index inside
    rw [BitVec.toNat_add _ (BitVec.ofNat 32 index), BitVec.toNat_ofNat]
    omega
  have last : startId + BitVec.ofNat 32 count =
      startId + 1#32 + BitVec.ofNat 32 (count - 1) := by
    rw [BitVec.add_assoc, ← BitVec.ofNat_add]
    congr 2
    omega
  constructor
  · intro valid
    have noWrap : (startId + 1#32).toNat + (count - 1) < 2 ^ 32 := by
      by_contra wrapped
      -- The largest id of all has been handed out, and no map has room for it.
      have inside := valid _ (mem_idsFrom.mpr
        ⟨2 ^ 32 - 1 - (startId + 1#32).toNat, by omega, rfl⟩)
      rw [BitVec.lt_def, value _ (by omega)] at inside
      have bounded := size.isLt
      omega
    exact ⟨noWrap, valid _ (mem_idsFrom.mpr ⟨count - 1, by omega, last⟩)⟩
  · rintro ⟨noWrap, lastInside⟩ id member
    obtain ⟨index, inside, rfl⟩ := mem_idsFrom.mp member
    rw [last, BitVec.lt_def, value _ noWrap] at lastInside
    rw [BitVec.lt_def, value _ (by omega)]
    omega

theorem ids_lt_sizeInUse_iff (positive : 0 < idsOfModule run.functions) :
    (∀ id ∈ run.state.ids,
        id < sizeInUse (writeLoc run.state.aflGlobalId) startup.mapSize) ↔
      IdsFit run startup := by
  obtain ⟨ids, globalId⟩ := run.ids_eq
  rw [ids, globalId, idsFrom_lt_iff _ _ positive]
  unfold IdsFit
  have lastValue : (run.startId + 1#32).toNat +
      (idsOfModule run.functions - 1) < 2 ^ 32 →
      run.lastId.toNat = (run.startId + 1#32).toNat +
        (idsOfModule run.functions - 1) := by
    intro noWrap
    have last : run.lastId = run.startId + 1#32 +
        BitVec.ofNat 32 (idsOfModule run.functions - 1) := by
      rw [Instrumentation.lastId, BitVec.add_assoc, ← BitVec.ofNat_add]
      congr 2
      omega
    rw [last, BitVec.toNat_add _ (BitVec.ofNat 32 _), BitVec.toNat_ofNat]
    omega
  by_cases noWrap : (run.startId + 1#32).toNat +
      (idsOfModule run.functions - 1) < 2 ^ 32
  · by_cases bounded : run.lastId.toNat ≤ 2 ^ 32 - 8
    · rw [← last_lt_sizeInUse_iff _ _ bounded, ← lastValue noWrap]
      exact and_congr_left fun _ => ⟨fun _ => bounded, fun _ => run.lastId.isLt⟩
    · -- The stored location is 0 and the map has its default size.
      rw [← lastValue noWrap]
      constructor
      · rintro ⟨_, inside⟩
        have size : sizeInUse 0#32 startup.mapSize = roundMapSize defaultMapSize := by
          rw [sizeInUse, show runtimeMapSize 0#32 = defaultMapSize by decide,
            if_pos (by decide)]
        have limit : (roundMapSize defaultMapSize).toNat = 65536 := by decide
        rw [← Instrumentation.lastId, writeLoc_overflow
          (Nat.lt_of_not_le bounded), size, BitVec.lt_def, limit] at inside
        omega
      · rintro ⟨inside, _⟩
        exact absurd inside bounded
  · constructor
    · rintro ⟨inside, _⟩
      exact absurd inside noWrap
    · rintro ⟨inside, _⟩
      omega

/-- The ids of a module are sound exactly when there are at most 2 ^ 32 of them
and, unless the start is refused, the last one stays inside the map. -/
theorem idsSound_iff :
    IdsSound run startup ↔
      idsOfModule run.functions ≤ 2 ^ 32 ∧
        (¬startup.Refuses (writeLoc run.lastId) →
          idsOfModule run.functions = 0 ∨ IdsFit run startup) := by
  obtain ⟨ids, globalId⟩ := run.ids_eq
  obtain ⟨profile, unique⟩ := run.profile_eq
  have distinct := idsFrom_nodup_iff run.startId (idsOfModule run.functions)
  rw [← ids] at distinct
  have inUse := startup.mapSizeInUse_eq_some (writeLoc run.state.aflGlobalId)
  constructor
  · rintro ⟨nodup, _, _, valid⟩
    refine ⟨distinct.mp nodup, fun accepted => ?_⟩
    by_cases none : idsOfModule run.functions = 0
    · exact .inl none
    · rw [← globalId] at accepted
      exact .inr ((ids_lt_sizeInUse_iff run startup (Nat.pos_of_ne_zero none)).mp
        (valid _ ((inUse _).mpr ⟨accepted, rfl⟩)))
  · rintro ⟨few, fit⟩
    refine ⟨distinct.mpr few, profile, unique, ?_⟩
    intro size found
    obtain ⟨accepted, rfl⟩ := (inUse size).mp found
    rw [globalId] at accepted
    rcases fit accepted with none | inside
    · rw [ids, none]
      intro id member
      cases member
    · by_cases none : idsOfModule run.functions = 0
      · rw [ids, none]
        intro id member
        cases member
      · exact (ids_lt_sizeInUse_iff run startup (Nat.pos_of_ne_zero none)).mpr inside

end Module

/-- One function with 64 blocks under `afl-fuzz`: the last id is the size of
the map. -/
theorem idsSound_fails_at_64_blocks :
    let run : Instrumentation :=
      { mapAddr := none
        startId := 0#32
        functions := [{ instrumented := true
                        blocks := List.replicate 64
                          { instructions := [], shouldInstrument := true } }] }
    let startup : Startup :=
      { settings := { aflMapSize := some 8388608#32, useMmap := false }
        sharedmemFuzzing := false
        dictionary := []
        dictionaryFits := by decide
        supportShmemFuzz := true
        mapSize := 8388608#32 }
    startup.mapSizeInUse (writeLoc run.state.aflGlobalId) = some 64#32 ∧
      64#32 ∈ run.state.ids ∧ ¬IdsSound run startup := by
  intro run startup
  obtain ⟨ids, globalId⟩ := run.ids_eq
  have count : idsOfModule run.functions = 64 := by decide
  have size : startup.mapSizeInUse (writeLoc run.state.aflGlobalId) = some 64#32 := by
    rw [globalId, Instrumentation.lastId, count]
    decide
  have member : 64#32 ∈ run.state.ids := by
    rw [ids, count, mem_idsFrom]
    exact ⟨63, by decide, rfl⟩
  refine ⟨size, member, fun sound => ?_⟩
  exact absurd (sound.2.2.2 _ size _ member) (by decide)

end AFLPlusPlus
