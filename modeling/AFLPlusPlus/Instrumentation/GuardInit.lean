import AFLPlusPlus.Forkserver.MapSize
import AFLPlusPlus.Support.Counting
import AFLPlusPlus.Support.Loops
import AFLPlusPlus.Support.Transitions

/-!
# Numbering the guards of a module

`__sanitizer_cov_trace_pc_guard_init` numbers the guards of a module from
`__afl_final_loc` on, `__afl_map_shm` takes that counter for the map size.
Modules may be loaded before the map is attached, before the fork server, or
after it.
-/

namespace AFLPlusPlus

/-- The globals of the runtime and the guards of all modules, by address. -/
structure GuardRuntime where
  finalLoc : BitVec 32
  mapSize : BitVec 32
  alreadyInitializedShm : Bool
  alreadyInitializedForkserver : Bool
  guards : Nat → BitVec 32
  /-- which guards were initialised before the fork server started -/
  early : Nat → Bool

/-- What `__afl_map_shm` finds: whether `SHM_ENV_VAR` is set, and the rest. -/
structure ShmEnvironment where
  idStr : Bool
  settings : MapShmSettings

/-- A call for the guards from `start` to `stop`. -/
structure InitCall where
  start : Nat
  stop : Nat
  ordered : start ≤ stop
  /-- `AFL_INST_RATIO`, 100 when it is not set -/
  instRatio : BitVec 32
  /-- `R(100)` for each guard after the first -/
  draws : Nat → BitVec 32

/-- The number of guards, `stop - start`. -/
def InitCall.count (call : InitCall) : Nat := call.stop - call.start

/-- `R(100) < inst_ratio` -/
def InitCall.hits (call : InitCall) (index : Nat) : Bool :=
  decide (call.draws index < call.instRatio)

namespace GuardRuntime

/-- `__afl_map_shm`; there is no result when it ends the process. -/
def mapShm (environment : ShmEnvironment) (runtime : GuardRuntime) :
    Option GuardRuntime :=
  if runtime.alreadyInitializedShm then some runtime
  else
    let settings := environment.settings
    let val := settings.aflMapSize.getD 0#32
    let mapSize :=
      if runtime.finalLoc ≠ 0#32 then runtime.finalLoc else runtime.mapSize
    if environment.idStr = true ∧ runtime.finalLoc ≠ 0#32 ∧
        defaultMapSize < runtime.finalLoc ∧ val < runtime.finalLoc ∧
        fsOptMaxMapsize < runtime.finalLoc then none
    else if environment.idStr = true ∧ settings.useMmap = false ∧
        mapSize ≠ 0#32 ∧ defaultMapSize < mapSize ∧
        (settings.aflMapSize = none ∨ val < defaultMapSize) then none
    else some { runtime with alreadyInitializedShm := true, mapSize }

/-- The size and the errors are those of `aflMapShm`. -/
theorem mapShm_eq_aflMapShm (environment : ShmEnvironment)
    (runtime : GuardRuntime) (underFuzzer : environment.idStr = true)
    (unmapped : runtime.alreadyInitializedShm = false)
    (initial : runtime.finalLoc = 0#32 → runtime.mapSize = defaultMapSize) :
    runtime.mapShm environment =
      match aflMapShm environment.settings runtime.finalLoc with
      | .error _ => none
      | .ok mapSize =>
          some { runtime with alreadyInitializedShm := true, mapSize } := by
  have size : (if runtime.finalLoc ≠ 0#32 then runtime.finalLoc
      else runtime.mapSize) =
      if runtime.finalLoc ≠ 0#32 then runtime.finalLoc else defaultMapSize := by
    split
    · rfl
    · rename_i zero
      exact initial (not_not.mp zero)
  unfold mapShm aflMapShm
  rw [unmapped, if_neg Bool.false_ne_true]
  dsimp only
  rw [size, underFuzzer]
  generalize (if runtime.finalLoc ≠ 0#32 then runtime.finalLoc
    else defaultMapSize) = mapSize
  simp only [true_and]
  split
  · rfl
  · split
    · rfl
    · rfl

/-- `*start = value`, with the counter moved to `finalLoc`. -/
def setGuard (address : Nat) (finalLoc value : BitVec 32)
    (runtime : GuardRuntime) : GuardRuntime :=
  { runtime with
    finalLoc
    guards := Function.update runtime.guards address value
    early := Function.update runtime.early address
      (!runtime.alreadyInitializedForkserver) }

/-- A guard after the first one: `value` of the next number, or 0. -/
def numberGuard (value : BitVec 32 → BitVec 32) (call : InitCall)
    (index : Nat) (runtime : GuardRuntime) : GuardRuntime :=
  let address := call.start + (index + 1)
  if call.hits index then
    let finalLoc := runtime.finalLoc + 1#32
    runtime.setGuard address finalLoc (value finalLoc)
  else runtime.setGuard address runtime.finalLoc 0#32

/-- All guards of a module, of which the first one always gets a number. -/
def numberGuards (value : BitVec 32 → BitVec 32) (call : InitCall)
    (runtime : GuardRuntime) : GuardRuntime :=
  let finalLoc := runtime.finalLoc + 1#32
  forRange (numberGuard value call) (call.count - 1)
    (runtime.setGuard call.start finalLoc finalLoc)

/-- The new code does not fit behind the counter. -/
def Crowded (call : InitCall) (runtime : GuardRuntime) : Prop :=
  runtime.alreadyInitializedForkserver = true ∧
    runtime.mapSize.toNat < (runtime.finalLoc + 1#32).toNat + call.count

instance (call : InitCall) (runtime : GuardRuntime) :
    Decidable (runtime.Crowded call) :=
  inferInstanceAs (Decidable (_ ∧ _))

/-- `__afl_unmap_shm` and `__afl_map_shm` when the counter passed the map. -/
def reinitShm (environment : ShmEnvironment) (runtime : GuardRuntime) :
    Option GuardRuntime :=
  if runtime.alreadyInitializedShm = true ∧ runtime.mapSize < runtime.finalLoc then
    { runtime with alreadyInitializedShm := false }.mapShm environment
  else some runtime

/-- `__sanitizer_cov_trace_pc_guard_init`; there is no result when it ends the
process. -/
def guardInit (environment : ShmEnvironment) (call : InitCall)
    (runtime : GuardRuntime) : Option GuardRuntime :=
  if call.start = call.stop ∨ runtime.guards call.start ≠ 0#32 then
    some runtime
  else if call.instRatio = 0#32 ∨ 100#32 < call.instRatio then none
  else if runtime.Crowded call then
    let runtime := { runtime with finalLoc := 2#32 }
    if runtime.mapSize.toNat < 1 + call.count then
      some (runtime.numberGuards (· % runtime.mapSize) call)
    else (runtime.numberGuards id call).reinitShm environment
  else (runtime.numberGuards id call).reinitShm environment

/-- What happens to the runtime. -/
inductive RuntimeMove where
  | mapShm
  | startForkserver
  | guardInit (call : InitCall)

def step (environment : ShmEnvironment) (move : RuntimeMove)
    (runtime : GuardRuntime) : Option GuardRuntime :=
  match move with
  | .mapShm => runtime.mapShm environment
  | .startForkserver => some { runtime with alreadyInitializedForkserver := true }
  | .guardInit call => runtime.guardInit environment call

def start : GuardRuntime where
  finalLoc := 0#32
  mapSize := defaultMapSize
  alreadyInitializedShm := false
  alreadyInitializedForkserver := false
  guards _ := 0#32
  early _ := false

/-- Once there is a map, every guard that is not 0 is an index into it. -/
def GuardsInside (runtime : GuardRuntime) : Prop :=
  runtime.alreadyInitializedShm = true → ∀ address,
    runtime.guards address ≠ 0#32 →
      (runtime.guards address).toNat < runtime.mapSize.toNat

/-- No two guards from before the fork server share a number. -/
def EarlyDistinct (runtime : GuardRuntime) : Prop :=
  ∀ first second, runtime.early first = true →
    runtime.early second = true → runtime.guards first ≠ 0#32 →
      runtime.guards first = runtime.guards second → first = second

end GuardRuntime

/-- How many numbers the first `count` guards after the first one take, and
the first one. -/
def InitCall.numbersUpTo (call : InitCall) (count : Nat) : Nat :=
  1 + Nat.count (fun index => call.hits index = true) count

def InitCall.numbers (call : InitCall) : Nat := call.numbersUpTo (call.count - 1)

/-- What a call stores in its guards. -/
def InitCall.number (call : InitCall) (value : BitVec 32 → BitVec 32)
    (finalLoc : BitVec 32) : Nat → BitVec 32
  | 0 => finalLoc + 1#32
  | index + 1 =>
      if call.hits index then
        value (finalLoc + BitVec.ofNat 32 (call.numbersUpTo (index + 1)))
      else 0#32

/-- A function changed on an interval, changed at the next argument too. -/
private theorem update_interval {Value : Type} (inside outside : Nat → Value)
    (start count : Nat) :
    Function.update (fun address =>
        if start ≤ address ∧ address ≤ start + count then inside address
        else outside address) (start + (count + 1))
        (inside (start + (count + 1))) =
      fun address =>
        if start ≤ address ∧ address ≤ start + (count + 1) then inside address
        else outside address := by
  funext address
  by_cases last : address = start + (count + 1)
  · subst last
    rw [Function.update_self, if_pos (by omega)]
  · have same : (start ≤ address ∧ address ≤ start + (count + 1)) ↔
        start ≤ address ∧ address ≤ start + count := by omega
    rw [Function.update_of_ne last]
    simp only [same]

namespace GuardRuntime

/-- The guards of a call after `count` rounds of its loop. -/
theorem forRange_numberGuard (value : BitVec 32 → BitVec 32)
    (call : InitCall) (runtime : GuardRuntime) (count : Nat) :
    forRange (numberGuard value call) count
        (runtime.setGuard call.start (runtime.finalLoc + 1#32)
          (runtime.finalLoc + 1#32)) =
      { runtime with
        finalLoc := runtime.finalLoc + BitVec.ofNat 32 (call.numbersUpTo count)
        guards := fun address =>
          if call.start ≤ address ∧ address ≤ call.start + count then
            call.number value runtime.finalLoc (address - call.start)
          else runtime.guards address
        early := fun address =>
          if call.start ≤ address ∧ address ≤ call.start + count then
            !runtime.alreadyInitializedForkserver
          else runtime.early address } := by
  induction count with
  | zero =>
      have only : ∀ address,
          (call.start ≤ address ∧ address ≤ call.start + 0) ↔
            address = call.start := by
        intro address
        omega
      simp only [forRange, setGuard, only, InitCall.numbersUpTo, Nat.count_zero]
      congr 1
      · funext address
        by_cases first : address = call.start
        · simp [first, InitCall.number]
        · simp [first]
      · funext address
        by_cases first : address = call.start
        · simp [first]
        · simp [first]
  | succ count induction =>
      have extends_ := update_interval (fun address =>
        call.number value runtime.finalLoc (address - call.start))
        runtime.guards call.start count
      have offset : call.start + (count + 1) - call.start = count + 1 := by
        omega
      rw [offset, InitCall.number] at extends_
      rw [forRange, induction]
      unfold numberGuard setGuard
      dsimp only
      rw [update_interval (fun _ => !runtime.alreadyInitializedForkserver)]
      cases hit : call.hits count with
      | true =>
          have more : call.numbersUpTo (count + 1) = call.numbersUpTo count + 1 := by
            simp [InitCall.numbersUpTo, Nat.count_succ, hit]
            omega
          have next : runtime.finalLoc +
              BitVec.ofNat 32 (call.numbersUpTo count) + 1#32 =
              runtime.finalLoc + BitVec.ofNat 32 (call.numbersUpTo (count + 1)) := by
            rw [more, BitVec.ofNat_add, BitVec.add_assoc]
          rw [hit, if_pos rfl] at extends_
          rw [if_pos rfl, next, extends_]
      | false =>
          have same : call.numbersUpTo (count + 1) = call.numbersUpTo count := by
            simp [InitCall.numbersUpTo, Nat.count_succ, hit]
          rw [hit, if_neg Bool.false_ne_true] at extends_
          rw [if_neg Bool.false_ne_true, same, extends_]

/-- An address of the guards of a call. -/
def Within (call : InitCall) (address : Nat) : Prop :=
  call.start ≤ address ∧ address ≤ call.start + (call.count - 1)

instance (call : InitCall) (address : Nat) : Decidable (Within call address) :=
  inferInstanceAs (Decidable (_ ∧ _))

theorem numberGuards_eq (value : BitVec 32 → BitVec 32) (call : InitCall)
    (runtime : GuardRuntime) :
    runtime.numberGuards value call =
      { runtime with
        finalLoc := runtime.finalLoc + BitVec.ofNat 32 call.numbers
        guards := fun address =>
          if Within call address then
            call.number value runtime.finalLoc (address - call.start)
          else runtime.guards address
        early := fun address =>
          if Within call address then !runtime.alreadyInitializedForkserver
          else runtime.early address } :=
  forRange_numberGuard value call runtime (call.count - 1)

end GuardRuntime

section Numbers

variable {call : InitCall} {finalLoc : BitVec 32}

theorem InitCall.numbersUpTo_mono (call : InitCall) {first second : Nat}
    (before : first ≤ second) :
    call.numbersUpTo first ≤ call.numbersUpTo second :=
  Nat.add_le_add_left (Nat.count_monotone _ before) 1

theorem InitCall.numbers_le (call : InitCall) (some : call.start ≠ call.stop) :
    call.numbers ≤ call.count := by
  have ordered := call.ordered
  have counted := Nat.count_le
    (p := fun index => call.hits index = true) (n := call.count - 1)
  unfold InitCall.numbers InitCall.numbersUpTo
  unfold InitCall.count at counted ⊢
  omega

theorem InitCall.numbersUpTo_lt {first second : Nat} (before : first < second)
    (numbered : call.number id finalLoc second ≠ 0#32) :
    call.numbersUpTo first < call.numbersUpTo second := by
  cases second with
  | zero => omega
  | succ second =>
      have hit : call.hits second = true := by
        by_contra miss
        exact numbered (by rw [number, if_neg miss])
      have counted := Nat.count_succ (fun index => call.hits index = true)
        second
      have upTo := call.numbersUpTo_mono (Nat.le_of_lt_succ before)
      rw [if_pos hit] at counted
      unfold numbersUpTo at upTo ⊢
      omega

theorem InitCall.toNat_number {index : Nat}
    (room : (finalLoc + 1#32).toNat + call.numbersUpTo index ≤ 2 ^ 32)
    (numbered : call.number id finalLoc index ≠ 0#32) :
    (call.number id finalLoc index).toNat + 1 =
      (finalLoc + 1#32).toNat + call.numbersUpTo index := by
  have upTo : call.number id finalLoc index =
      finalLoc + BitVec.ofNat 32 (call.numbersUpTo index) := by
    cases index with
    | zero => simp [number, numbersUpTo]
    | succ index =>
        rw [number] at numbered ⊢
        split
        · rfl
        · rename_i miss
          exact absurd (if_neg miss) numbered
  have positive : 0 < call.numbersUpTo index := by
    unfold numbersUpTo
    omega
  rw [upTo, BitVec.toNat_add, BitVec.toNat_ofNat]
  rw [BitVec.toNat_add] at room ⊢
  simp only [BitVec.toNat_ofNat] at room ⊢
  omega

end Numbers

variable {next : GuardRuntime} {environment : ShmEnvironment}

namespace GuardRuntime

/-- The guards and the counter fit together. -/
structure Sound (runtime : GuardRuntime) : Prop where
  inside : runtime.GuardsInside
  distinct : runtime.EarlyDistinct
  mapped : 0 < runtime.mapSize.toNat
  unnumbered : runtime.alreadyInitializedShm = false →
    runtime.finalLoc = 0#32 → ∀ address, runtime.guards address = 0#32
  counted : runtime.alreadyInitializedForkserver = false → ∀ address,
    (runtime.guards address).toNat ≤ runtime.finalLoc.toNat

/-- There are numbers left for a call: those of the map, and where these are
not yet known or the numbers have to be new, those the counter can hold. -/
structure Room (call : InitCall) (runtime : GuardRuntime) : Prop where
  inside : runtime.alreadyInitializedShm = true →
    (runtime.finalLoc + 1#32).toNat + call.numbers ≤ runtime.mapSize.toNat
  above : runtime.alreadyInitializedShm = false ∨
      runtime.alreadyInitializedForkserver = false →
    runtime.finalLoc.toNat + call.numbers < 2 ^ 32

variable {call : InitCall} {runtime : GuardRuntime}

/-- What a call with room for its numbers stores. -/
theorem Room.toNat_number (room : runtime.Room call) {address : Nat}
    (within_ : Within call address)
    (numbered : call.number id runtime.finalLoc (address - call.start) ≠ 0#32) :
    (call.number id runtime.finalLoc (address - call.start)).toNat + 1 =
      (runtime.finalLoc + 1#32).toNat + call.numbersUpTo (address - call.start) := by
  have upTo : call.numbersUpTo (address - call.start) ≤ call.numbers :=
    call.numbersUpTo_mono (by unfold Within at within_; omega)
  apply InitCall.toNat_number _ numbered
  have size := runtime.mapSize.isLt
  cases mapped : runtime.alreadyInitializedShm with
  | true =>
      have inside := room.inside mapped
      omega
  | false =>
      have above := room.above (.inl mapped)
      rw [BitVec.toNat_add]
      simp only [BitVec.toNat_ofNat]
      omega

/-- The counter after a call with room for its numbers. -/
theorem Room.toNat_finalLoc (room : runtime.Room call) :
    (runtime.alreadyInitializedShm = true →
        (runtime.finalLoc + BitVec.ofNat 32 call.numbers).toNat <
          runtime.mapSize.toNat) ∧
      (runtime.alreadyInitializedShm = false ∨
          runtime.alreadyInitializedForkserver = false →
        (runtime.finalLoc + BitVec.ofNat 32 call.numbers).toNat =
          runtime.finalLoc.toNat + call.numbers) := by
  have positive : 0 < call.numbers := by
    unfold InitCall.numbers InitCall.numbersUpTo
    omega
  rw [BitVec.toNat_add]
  constructor
  · intro mapped
    have inside := room.inside mapped
    have size := runtime.mapSize.isLt
    rw [BitVec.toNat_add] at inside
    simp only [BitVec.toNat_ofNat] at inside ⊢
    omega
  · intro isNew
    have above := room.above isNew
    simp only [BitVec.toNat_ofNat]
    omega

/-- Before the fork server a number is new. -/
theorem Room.toNat_new (room : runtime.Room call)
    (before : runtime.alreadyInitializedForkserver = false) {address : Nat}
    (within_ : Within call address)
    (numbered : call.number id runtime.finalLoc (address - call.start) ≠ 0#32) :
    (call.number id runtime.finalLoc (address - call.start)).toNat =
      runtime.finalLoc.toNat + call.numbersUpTo (address - call.start) := by
  have value := room.toNat_number within_ numbered
  have above := room.above (.inr before)
  have positive : 0 < call.numbers := by
    unfold InitCall.numbers InitCall.numbersUpTo
    omega
  rw [BitVec.toNat_add] at value
  simp only [BitVec.toNat_ofNat] at value
  omega

theorem Sound.distinct_late (sound : runtime.Sound)
    (late : runtime.alreadyInitializedForkserver = true)
    (value : BitVec 32 → BitVec 32) :
    (runtime.numberGuards value call).EarlyDistinct := by
  rw [numberGuards_eq]
  intro first second firstEarly secondEarly numbered same
  dsimp only at firstEarly secondEarly numbered same
  rw [late] at firstEarly secondEarly
  split at firstEarly
  · cases firstEarly
  · rename_i firstOutside
    split at secondEarly
    · cases secondEarly
    · rename_i secondOutside
      rw [if_neg firstOutside] at numbered same
      rw [if_neg secondOutside] at same
      exact sound.distinct first second firstEarly secondEarly numbered same

theorem Sound.numberGuards_distinct (sound : runtime.Sound)
    (room : runtime.Room call) :
    (runtime.numberGuards id call).EarlyDistinct := by
  cases before : runtime.alreadyInitializedForkserver with
  | true => exact sound.distinct_late before id
  | false =>
      rw [numberGuards_eq]
      intro first second firstEarly secondEarly numbered same
      dsimp only at firstEarly secondEarly numbered same
      by_cases firstWithin : Within call first
      · rw [if_pos firstWithin] at numbered same
        have firstValue := room.toNat_new before firstWithin numbered
        by_cases secondWithin : Within call second
        · rw [if_pos secondWithin] at same
          have other := numbered
          rw [same] at other
          have secondValue := room.toNat_new before secondWithin other
          rw [same] at firstValue
          unfold Within at firstWithin secondWithin
          rcases Nat.lt_trichotomy first second with less | equal | greater
          · have larger := InitCall.numbersUpTo_lt
              (show first - call.start < second - call.start by omega) other
            omega
          · exact equal
          · have larger := InitCall.numbersUpTo_lt
              (show second - call.start < first - call.start by omega)
              numbered
            omega
        · rw [if_neg secondWithin] at same
          have counted := sound.counted before second
          have positive : 0 < call.numbersUpTo (first - call.start) := by
            unfold InitCall.numbersUpTo
            omega
          rw [same] at firstValue
          omega
      · rw [if_neg firstWithin] at firstEarly numbered same
        have counted := sound.counted before first
        by_cases secondWithin : Within call second
        · rw [if_pos secondWithin] at same
          have other := numbered
          rw [same] at other
          have secondValue := room.toNat_new before secondWithin other
          have positive : 0 < call.numbersUpTo (second - call.start) := by
            unfold InitCall.numbersUpTo
            omega
          rw [same] at counted
          omega
        · rw [if_neg secondWithin] at secondEarly same
          exact sound.distinct first second firstEarly secondEarly numbered
            same

theorem Sound.numberGuards (sound : runtime.Sound)
    (room : runtime.Room call) :
    (runtime.numberGuards id call).Sound := by
  obtain ⟨below, added⟩ := room.toNat_finalLoc
  have positive : 0 < call.numbers := by
    unfold InitCall.numbers InitCall.numbersUpTo
    omega
  rw [numberGuards_eq]
  constructor
  · intro mapped address numbered
    dsimp only at mapped numbered ⊢
    split at numbered
    · rename_i within_
      rw [if_pos within_]
      have value := room.toNat_number within_ numbered
      have inside := room.inside mapped
      have upTo : call.numbersUpTo (address - call.start) ≤ call.numbers :=
        call.numbersUpTo_mono (by unfold Within at within_; omega)
      omega
    · rename_i outside
      rw [if_neg outside]
      exact sound.inside mapped address numbered
  · rw [← numberGuards_eq]
    exact sound.numberGuards_distinct room
  · exact sound.mapped
  · intro unmapped zero
    have value := added (.inl unmapped)
    dsimp only at zero
    rw [zero] at value
    simp at value
    omega
  · intro before address
    have counted := sound.counted before address
    dsimp only
    rw [added (.inr before)]
    split
    · rename_i within_
      by_cases numbered : call.number id runtime.finalLoc (address - call.start) = 0#32
      · simp [numbered]
      · have value := room.toNat_number within_ numbered
        have above := room.above (.inr before)
        have upTo : call.numbersUpTo (address - call.start) ≤ call.numbers :=
          call.numbersUpTo_mono (by unfold Within at within_; omega)
        rw [BitVec.toNat_add] at value
        simp only [BitVec.toNat_ofNat] at value
        omega
    · omega

/-- How many numbers there are: the size of the map once it is known. -/
def limit (runtime : GuardRuntime) : Nat :=
  if runtime.alreadyInitializedShm then runtime.mapSize.toNat else 2 ^ 32

/-- The numbers of a call stay below the limit. -/
def HasNumbers (call : InitCall) (runtime : GuardRuntime) : Prop :=
  if runtime.Crowded call then
    if runtime.mapSize.toNat < 1 + call.count then
      if runtime.alreadyInitializedShm then 3 < runtime.mapSize.toNat
      else 2 + call.numbers < 2 ^ 32
    else 2 + call.numbers < runtime.limit
  else
    (runtime.alreadyInitializedForkserver = true ∧
        runtime.alreadyInitializedShm = true) ∨
      runtime.finalLoc.toNat + call.numbers < runtime.limit

/-- The map is attached before any guard has a number, and every call that
numbers guards has the numbers for them. -/
def Meets (runtime : GuardRuntime) : RuntimeMove → Prop
  | .mapShm =>
      runtime.alreadyInitializedShm = true ∨ runtime.finalLoc = 0#32
  | .startForkserver => True
  | .guardInit call =>
      call.start = call.stop ∨ runtime.guards call.start ≠ 0#32 ∨
        runtime.HasNumbers call

theorem limit_le (runtime : GuardRuntime) : runtime.limit ≤ 2 ^ 32 := by
  unfold limit
  split
  · exact Nat.le_of_lt runtime.mapSize.isLt
  · exact Nat.le_refl _

theorem Room.of_lt
    (below : runtime.finalLoc.toNat + call.numbers < runtime.limit) :
    runtime.Room call := by
  constructor
  · intro mapped
    rw [limit, if_pos mapped] at below
    rw [BitVec.toNat_add]
    simp only [BitVec.toNat_ofNat]
    omega
  · intro _
    have bound := runtime.limit_le
    omega

theorem Room.reinitShm (room : runtime.Room call)
    (environment : ShmEnvironment) :
    (runtime.numberGuards id call).reinitShm environment =
      some (runtime.numberGuards id call) := by
  rw [GuardRuntime.reinitShm, if_neg]
  rw [numberGuards_eq]
  rintro ⟨mapped, passed⟩
  have below := room.toNat_finalLoc.1 mapped
  rw [BitVec.lt_def] at passed
  dsimp only at passed
  omega

section

variable (sound : runtime.Sound)
include sound

/-- Code that does not fit at all gets numbers modulo the map size. -/
theorem Sound.numberGuards_mod (late : runtime.alreadyInitializedForkserver = true)
    (reset : runtime.finalLoc = 2#32)
    (inside : runtime.alreadyInitializedShm = true → 3 < runtime.mapSize.toNat)
    (counts : runtime.alreadyInitializedShm = false → 2 + call.numbers < 2 ^ 32) :
    (runtime.numberGuards (· % runtime.mapSize) call).Sound := by
  rw [numberGuards_eq]
  constructor
  · intro mapped address numbered
    dsimp only at mapped numbered ⊢
    split at numbered
    · rename_i within_
      rw [if_pos within_]
      generalize address - call.start = index at numbered ⊢
      cases index with
      | zero =>
          have room := inside mapped
          rw [InitCall.number, reset]
          exact room
      | succ index =>
          rw [InitCall.number] at numbered ⊢
          split
          · rw [BitVec.toNat_umod]
            exact Nat.mod_lt _ sound.mapped
          · rename_i miss
            exact absurd (if_neg miss) numbered
    · rename_i outside
      rw [if_neg outside]
      exact sound.inside mapped address numbered
  · rw [← numberGuards_eq]
    exact sound.distinct_late late _
  · exact sound.mapped
  · intro unmapped zero
    have fits := counts unmapped
    dsimp only at zero
    rw [reset] at zero
    have value := congrArg BitVec.toNat zero
    simp at value
    omega
  · intro before
    dsimp only at before
    rw [late] at before
    cases before

theorem Sound.resetCounter (late : runtime.alreadyInitializedForkserver = true) :
    { runtime with finalLoc := 2#32 }.Sound where
  inside := sound.inside
  distinct := sound.distinct
  mapped := sound.mapped
  unnumbered _ zero := absurd zero (by simp)
  counted before := absurd before (by simp [late])

theorem Sound.guardInit (meets : runtime.Meets (.guardInit call))
    (called : runtime.guardInit environment call = some next) :
    next.Sound := by
  unfold GuardRuntime.guardInit at called
  split at called
  · obtain rfl := Option.some.inj called
    exact sound
  · rename_i unnumbered
    have has : runtime.HasNumbers call := by
      rcases meets with none | numbered | has
      · exact absurd (.inl none) unnumbered
      · exact absurd (.inr numbered) unnumbered
      · exact has
    unfold HasNumbers at has
    split at called
    · cases called
    · split at called
      · rename_i crowded
        rw [if_pos crowded] at has
        have reset := sound.resetCounter crowded.1
        dsimp only at called
        split at called
        · rename_i large
          rw [if_pos large] at has
          obtain rfl := Option.some.inj called
          apply reset.numberGuards_mod crowded.1 rfl
          · intro mapped
            rw [if_pos mapped] at has
            exact has
          · intro unmapped
            have notMapped : ¬ runtime.alreadyInitializedShm = true :=
              fun mapped => Bool.noConfusion (mapped.symm.trans unmapped)
            rw [if_neg notMapped] at has
            exact has
        · rename_i fits
          rw [if_neg fits] at has
          have room : { runtime with finalLoc := 2#32 }.Room call := .of_lt has
          rw [room.reinitShm] at called
          obtain rfl := Option.some.inj called
          exact reset.numberGuards room
      · rename_i fits
        rw [if_neg fits] at has
        have room : runtime.Room call := by
          rcases has with ⟨late, mapped⟩ | below
          · constructor
            · intro _
              have some := call.numbers_le fun none => unnumbered (.inl none)
              have inside : ¬ runtime.mapSize.toNat <
                  (runtime.finalLoc + 1#32).toNat + call.count :=
                fun more => fits ⟨late, more⟩
              omega
            · rintro (unmapped | before)
              · rw [mapped] at unmapped
                cases unmapped
              · rw [late] at before
                cases before
          · exact .of_lt below
        rw [room.reinitShm] at called
        obtain rfl := Option.some.inj called
        exact sound.numberGuards room

theorem Sound.mapShm (meets : runtime.Meets .mapShm)
    (called : runtime.mapShm environment = some next) : next.Sound := by
  unfold GuardRuntime.mapShm at called
  split at called
  · obtain rfl := Option.some.inj called
    exact sound
  · rename_i unmapped
    have zero := meets.resolve_left unmapped
    have none := sound.unnumbered (Bool.eq_false_of_not_eq_true unmapped) zero
    simp only [zero, ne_eq, not_true_eq_false, false_and, and_false, if_false]
      at called
    split at called
    · cases called
    · obtain rfl := Option.some.inj called
      exact {
        inside := fun _ address numbered => absurd (none address) numbered
        distinct := sound.distinct
        mapped := sound.mapped
        unnumbered := fun _ _ => none
        counted := fun before => zero ▸ sound.counted before }

theorem Sound.step {move : RuntimeMove} (meets : runtime.Meets move)
    (stepped : GuardRuntime.step environment move runtime = some next) :
    next.Sound := by
  cases move with
  | mapShm => exact sound.mapShm meets stepped
  | startForkserver =>
      obtain rfl := Option.some.inj stepped
      exact {
        inside := sound.inside
        distinct := sound.distinct
        mapped := sound.mapped
        unnumbered := sound.unnumbered
        counted := Bool.noConfusion }
  | guardInit call => exact sound.guardInit meets stepped

end

theorem Sound.start : GuardRuntime.start.Sound where
  inside mapped := Bool.noConfusion mapped
  distinct _ _ isEarly := Bool.noConfusion isEarly
  mapped := by decide
  unnumbered _ _ _ := rfl
  counted _ _ := Nat.le_refl 0

/-- In every run in which the map is attached before any guard has a number
and no call runs out of numbers, every guard is an index into the map, and the
guards from before the fork server have numbers of their own. -/
theorem run_guardsInside (environment : ShmEnvironment)
    {moves : List RuntimeMove} {reached : GuardRuntime}
    (meets : MovesMeet (step environment) Meets moves start)
    (runs : runMoves (step environment) moves start = some reached) :
    reached.GuardsInside ∧ reached.EarlyDistinct := by
  have sound : reached.Sound :=
    runMoves_invariant_of_meets Sound
      (fun _ _ _ sound meets stepped => sound.step meets stepped)
      Sound.start meets runs
  exact ⟨sound.inside, sound.distinct⟩

/-- The guards from `start` to `stop`, all of which get a number. -/
def allGuards (start stop : Nat) (ordered : start ≤ stop) : InitCall :=
  ⟨start, stop, ordered, 100#32, fun _ => 0#32⟩

/-- A fuzzer that does not set `AFL_MAP_SIZE`. -/
def underFuzzer : ShmEnvironment := ⟨true, ⟨none, false⟩⟩

/-- A library loaded before the fork server, and one after it. -/
def lateLibrary : List RuntimeMove :=
  [.mapShm, .guardInit (allGuards 0 3 (by decide)), .startForkserver,
    .guardInit (allGuards 3 5 (by decide))]

theorem run_guardsInside_lateLibrary :
    MovesMeet (step underFuzzer) Meets lateLibrary start ∧
      ∃ reached, runMoves (step underFuzzer) lateLibrary start = some reached ∧
        reached.GuardsInside ∧ reached.EarlyDistinct := by
  have meets : MovesMeet (step underFuzzer) Meets lateLibrary start := by
    refine ⟨.inr rfl, fun next stepped => ?_⟩
    obtain rfl := Option.some.inj stepped
    refine ⟨.inr (.inr (.inr (by decide))), fun next stepped => ?_⟩
    obtain rfl := Option.some.inj stepped
    refine ⟨trivial, fun next stepped => ?_⟩
    obtain rfl := Option.some.inj stepped
    exact ⟨.inr (.inr (.inl (by decide))), fun _ _ => trivial⟩
  exact ⟨meets, _, rfl, run_guardsInside underFuzzer meets rfl⟩

set_option maxRecDepth 4000 in
/-- The last of 64 guards gets the number 64, which is the size of the map. -/
theorem run_guardsInside_fails_at_64_guards :
    ¬ ∀ moves reached,
      runMoves (step underFuzzer) moves start = some reached →
        reached.GuardsInside ∧ reached.EarlyDistinct := by
  intro always
  have last : (start.numberGuards id (allGuards 0 64 (by decide))).guards 63 =
      64#32 := by
    rw [numberGuards_eq]
    decide
  have counter : (start.numberGuards id
      (allGuards 0 64 (by decide))).finalLoc = 64#32 := by
    rw [numberGuards_eq]
    decide
  have runs : runMoves (step underFuzzer)
      [.guardInit (allGuards 0 64 (by decide)), .mapShm] start = some
        { start.numberGuards id (allGuards 0 64 (by decide)) with
          alreadyInitializedShm := true
          mapSize := (start.numberGuards id
            (allGuards 0 64 (by decide))).finalLoc } := rfl
  have below := (always _ _ runs).1 rfl 63
    (show (start.numberGuards id (allGuards 0 64 (by decide))).guards 63 ≠
      0#32 by rw [last]; decide)
  dsimp only at below
  rw [last, counter] at below
  exact absurd below (by decide)

end GuardRuntime

end AFLPlusPlus
