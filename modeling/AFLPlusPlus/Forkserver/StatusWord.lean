import AFLPlusPlus.Forkserver.Protocol

/-!
# Reading the first word

`__afl_start_forkserver` and `__afl_start_snapshots` put the options of a
target into one word, `send_forkserver_error` an error code, and
`afl_fsrv_start` takes the word apart again.
-/

namespace AFLPlusPlus

/-- `status` of `__afl_start_snapshots`. -/
def TargetOptions.statusForSnapshots (target : TargetOptions) : BitVec 32 :=
  let status := fsOptEnabled ||| fsOptSnapshot
  let status :=
    if target.sharedmemFuzzing then status ||| fsOptShdmemFuzz else status
  let status :=
    if target.mapSize ≤ fsOptMaxMapsize then
      status ||| (fsOptSetMapsize target.mapSize ||| fsOptMapsize)
    else status
  if target.hasDictionary then status ||| fsOptAutodict else status

/-- The first word of a target, with or without the snapshot server. -/
def TargetOptions.status (target : TargetOptions) (snapshots : Bool) : BitVec 32 :=
  if snapshots then target.statusForSnapshots else target.statusForFsrv

def fsErrorMapAddr : BitVec 32 := 2#32

def fsErrorShmOpen : BitVec 32 := 4#32

def fsErrorShmat : BitVec 32 := 8#32

def fsErrorMmap : BitVec 32 := 16#32

/-- The codes `send_forkserver_error` is called with. -/
def forkserverErrors : List (BitVec 32) :=
  [fsErrorMapSize, fsErrorMapAddr, fsErrorShmOpen, fsErrorShmat, fsErrorMmap]

/-- `send_forkserver_error`: the word it writes, if any. -/
def sendForkserverError (error : BitVec 32) : Option (BitVec 32) :=
  if error = 0#32 ∨ (0xffff#32).slt error then none
  else some (forkserverError error)

/-- `FS_OPT_GET_ERROR(x)` -/
def fsOptGetError (x : BitVec 32) : BitVec 32 := (x &&& 0x00ffff00#32) >>> 8

/-- What `afl_fsrv_start` takes from the word into `afl_forkserver_t`. -/
structure Fsrv where
  snapshot : Bool
  useShmemFuzz : Bool
  mapSize : BitVec 32
  realMapSize : BitVec 32
  deriving DecidableEq, Repr

/-- How the reading of the first word ends: with an error, with the end of
`afl_fsrv_start`, or with a dictionary to be read. -/
inductive HelloEnd where
  | reportError (error : BitVec 32)
  | sharedmemUnsupported
  | mapTooLarge (tmpMapSize : BitVec 32)
  | started
  | dictionaryDenied
  | dictionaryAsked
  deriving DecidableEq, Repr

structure HelloOutcome where
  fsrv : Fsrv
  /-- the words written to the control pipe -/
  answers : List (BitVec 32)
  finish : HelloEnd
  deriving DecidableEq, Repr

/-- The `FS_OPT_SNAPSHOT` branch. -/
def Fsrv.takeSnapshot (status : BitVec 32) (fsrv : Fsrv) : Fsrv :=
  if hasOption status fsOptSnapshot then { fsrv with snapshot := true }
  else fsrv

/-- The `FS_OPT_SHDMEM_FUZZ` branch of a fuzzer that supports it. -/
def Fsrv.takeSharedmem (status : BitVec 32) (fsrv : Fsrv) : Fsrv :=
  if hasOption status fsOptShdmemFuzz then { fsrv with useShmemFuzz := true }
  else fsrv

/-- The answer in the `FS_OPT_SHDMEM_FUZZ` branch. -/
def sharedmemAnswers (server : ServerOptions) (status : BitVec 32) :
    List (BitVec 32) :=
  if hasOption status fsOptShdmemFuzz ∧
      (status &&& fsOptAutodict = 0#32 ∨ server.ignoreAutodict = true) then
    [fsOptEnabled ||| fsOptShdmemFuzz]
  else []

/-- The `FS_OPT_MAPSIZE` branch, with the size that is too large if it is. -/
def Fsrv.takeMapsize (status : BitVec 32) (fsrv : Fsrv) : Fsrv × Option (BitVec 32) :=
  if hasOption status fsOptMapsize then
    let fsrv :=
      { fsrv with
        mapSize := if fsrv.mapSize = 0#32 then defaultMapSize else fsrv.mapSize
        realMapSize := fsOptGetMapsize status }
    let tmpMapSize := roundMapSize (fsOptGetMapsize status)
    if fsrv.mapSize < tmpMapSize then (fsrv, some tmpMapSize)
    else ({ fsrv with mapSize := tmpMapSize }, none)
  else (fsrv, none)

/-- The `FS_OPT_AUTODICT` branch up to the answer. -/
def takeAutodict (server : ServerOptions) (status : BitVec 32)
    (useShmemFuzz : Bool) : List (BitVec 32) × HelloEnd :=
  if hasOption status fsOptAutodict ∧ server.ignoreAutodict = false then
    if server.addExtra = false then
      ([if useShmemFuzz then fsOptEnabled ||| fsOptShdmemFuzz
        else fsOptEnabled], .dictionaryDenied)
    else
      ([if useShmemFuzz then
          fsOptEnabled ||| fsOptAutodict ||| fsOptShdmemFuzz
        else fsOptEnabled ||| fsOptAutodict], .dictionaryAsked)
  else ([], .started)

/-- What `afl_fsrv_start` does with the first word. -/
def readHello (server : ServerOptions) (status : BitVec 32) (fsrv : Fsrv) :
    HelloOutcome :=
  if hasOption status fsOptError then
    ⟨fsrv, [], .reportError (fsOptGetError status)⟩
  else if hasOption status fsOptEnabled then
    let status :=
      if hasOption status fsOptOldAflppWorkaround then
        status &&& 0xf0ffffff#32
      else status
    let fsrv := fsrv.takeSnapshot status
    if hasOption status fsOptShdmemFuzz ∧ server.supportShmemFuzz = false then
      ⟨fsrv, [], .sharedmemUnsupported⟩
    else
      let fsrv := fsrv.takeSharedmem status
      let answers := sharedmemAnswers server status
      match fsrv.takeMapsize status with
      | (fsrv, some tmpMapSize) => ⟨fsrv, answers, .mapTooLarge tmpMapSize⟩
      | (fsrv, none) =>
          let (more, finish) := takeAutodict server status fsrv.useShmemFuzz
          ⟨fsrv, answers ++ more, finish⟩
  else ⟨fsrv, [], .started⟩

/-- The option bits of a target that announces its map size. -/
def announcedWith (snapshots dictionary sharedmem : Bool) : BitVec 32 :=
  announced true dictionary sharedmem |||
    if snapshots then fsOptSnapshot else 0#32

theorem TargetOptions.status_eq (target : TargetOptions) (snapshots : Bool)
    (bounded : target.mapSize ≤ fsOptMaxMapsize) :
    target.status snapshots =
      fsOptSetMapsize target.mapSize |||
        announcedWith snapshots target.hasDictionary
          target.sharedmemFuzzing := by
  cases snapshots with
  | false =>
      have plain := target.statusForFsrv_eq
      rw [if_pos bounded, optionBits, decide_eq_true bounded] at plain
      simpa [status, announcedWith] using plain
  | true =>
      unfold status statusForSnapshots announcedWith announced
      cases target.hasDictionary <;> cases target.sharedmemFuzzing <;>
        simp [bounded] <;> ac_rfl

theorem hasOption_setMapsize_or (size bits : BitVec 32) {option : BitVec 32}
    (isOption : option &&& 0xff000001#32 = option) :
    hasOption (fsOptSetMapsize size ||| bits) option = hasOption bits option := by
  have apart : fsOptSetMapsize size &&& option = 0#32 := by
    rw [← isOption, BitVec.and_comm option, ← BitVec.and_assoc,
      fsOptSetMapsize_and_options, BitVec.zero_and]
  rw [hasOption, hasOption, BitVec.and_or_distrib_right, apart, BitVec.zero_or]

theorem hasOption_part {word option part : BitVec 32}
    (isPart : option &&& part = part) (found : hasOption word option = true) :
    hasOption word part = true := by
  rw [hasOption, decide_eq_true_iff] at found ⊢
  rw [← isPart, ← BitVec.and_assoc, found]

/-- The bit of `FS_OPT_ERROR` that no option has. -/
def errorBit : BitVec 32 := 0x08000000#32

theorem announcedWith_options : ∀ snapshots dictionary sharedmem : Bool,
    let word := announcedWith snapshots dictionary sharedmem
    hasOption word fsOptEnabled = true ∧ hasOption word fsOptMapsize = true ∧
      hasOption word fsOptSnapshot = snapshots ∧
      hasOption word fsOptAutodict = dictionary ∧
      hasOption word fsOptShdmemFuzz = sharedmem ∧
      hasOption word fsOptOldAflppWorkaround = false ∧
      hasOption word errorBit = false ∧
      word &&& 0x00fffffe#32 = 0#32 := by
  decide

/-- What the fuzzer finds in a word. -/
structure Announces (word size : BitVec 32)
    (snapshots dictionary sharedmem : Bool) : Prop where
  error : hasOption word fsOptError = false
  enabled : hasOption word fsOptEnabled = true
  workaround : hasOption word fsOptOldAflppWorkaround = false
  snapshot : hasOption word fsOptSnapshot = snapshots
  shdmem : hasOption word fsOptShdmemFuzz = sharedmem
  mapsize : hasOption word fsOptMapsize = true
  size : fsOptGetMapsize word = size
  autodict : hasOption word fsOptAutodict = dictionary

theorem TargetOptions.status_announces (target : TargetOptions)
    (snapshots : Bool) (positive : target.mapSize ≠ 0#32)
    (bounded : target.mapSize ≤ fsOptMaxMapsize) :
    Announces (target.status snapshots) target.mapSize snapshots
      target.hasDictionary target.sharedmemFuzzing := by
  obtain ⟨enabled, mapsize, snapshot, autodict, shdmem, workaround, noError,
    apart⟩ := announcedWith_options snapshots target.hasDictionary
      target.sharedmemFuzzing
  rw [target.status_eq snapshots bounded]
  have finds : ∀ {option : BitVec 32}, option &&& 0xff000001#32 = option → _ :=
    fun isOption => hasOption_setMapsize_or target.mapSize
      (announcedWith snapshots target.hasDictionary target.sharedmemFuzzing)
      isOption
  exact {
    error := by
      by_contra found
      rw [Bool.not_eq_false] at found
      have bit := hasOption_part
        (by decide : fsOptError &&& errorBit = errorBit) found
      rw [finds (by decide), noError] at bit
      cases bit
    enabled := (finds (by decide)).trans enabled
    workaround := (finds (by decide)).trans workaround
    snapshot := (finds (by decide)).trans snapshot
    shdmem := (finds (by decide)).trans shdmem
    mapsize := (finds (by decide)).trans mapsize
    size := fsOptGetMapsize_set positive bounded apart
    autodict := (finds (by decide)).trans autodict }

variable (server : ServerOptions)

theorem readHello_forkserverError (fsrv : Fsrv) (error : BitVec 32) :
    readHello server (forkserverError error) fsrv =
      ⟨fsrv, [], .reportError (error &&& 0xffff#32)⟩ := by
  have isError : hasOption (forkserverError error) fsOptError = true := by
    rw [hasOption, decide_eq_true_iff, forkserverError, BitVec.and_comm]
    apply BitVec.eq_of_getLsbD_eq
    intro bit inside
    rw [BitVec.getLsbD_and, BitVec.getLsbD_or]
    cases fsOptError.getLsbD bit with
    | false => rfl
    | true => rfl
  have code : fsOptGetError (forkserverError error) = error &&& 0xffff#32 := by
    unfold fsOptGetError forkserverError
    have marker : fsOptError &&& 0x00ffff00#32 = 0#32 := by decide
    have field : 0x00ffff00#32 = 0xffff#32 <<< 8 := by decide
    rw [BitVec.and_or_distrib_right, marker, BitVec.zero_or, field,
      ← BitVec.shiftLeft_and_distrib, BitVec.and_assoc, BitVec.and_self]
    apply BitVec.eq_of_getLsbD_eq
    intro bit inside
    have low : ∀ bit < 32, (0xffff#32).getLsbD bit = true → bit < 24 := by
      decide
    rw [BitVec.getLsbD_ushiftRight, BitVec.getLsbD_shiftLeft, BitVec.getLsbD_and]
    cases selected : (0xffff#32).getLsbD bit with
    | false => simp [selected]
    | true =>
        have small := low bit inside selected
        simp [selected]
        omega
  rw [readHello, if_pos isError, code]

theorem sendForkserverError_and {error word : BitVec 32}
    (sent : sendForkserverError error = some word)
    (nonnegative : error.slt 0#32 = false) :
    word = forkserverError error ∧ error &&& 0xffff#32 = error := by
  unfold sendForkserverError at sent
  split at sent
  · cases sent
  · rename_i inRange
    obtain rfl := Option.some.inj sent
    rw [not_or, Bool.not_eq_true] at inRange
    obtain ⟨_, small⟩ := inRange
    have value : error.toNat < 65536 := by
      rw [BitVec.slt_eq_decide, decide_eq_false_iff_not] at small nonnegative
      have bound : (0xffff#32).toInt = 65535 := by decide
      have zero : (0#32).toInt = 0 := by decide
      rw [bound] at small
      rw [zero] at nonnegative
      rw [BitVec.toInt_eq_toNat_cond] at small nonnegative
      split at small <;> omega
    refine ⟨rfl, BitVec.eq_of_toNat_eq ?_⟩
    have mask : (0xffff#32).toNat = 2 ^ 16 - 1 := by decide
    rw [BitVec.toNat_and, mask, Nat.and_two_pow_sub_one_eq_mod]
    exact Nat.mod_eq_of_lt value

/-- How `afl_fsrv_start` ends for a target it can run. -/
def TargetOptions.dictionaryEnd (target : TargetOptions)
    (server : ServerOptions) : HelloEnd :=
  if target.hasDictionary = true ∧ server.ignoreAutodict = false then
    if server.addExtra = false then .dictionaryDenied else .dictionaryAsked
  else .started

/-- The fuzzer takes from a word what the word announces. -/
theorem readHello_announces {word size : BitVec 32}
    {snapshots dictionary sharedmem : Bool}
    (announces : Announces word size snapshots dictionary sharedmem)
    (server : ServerOptions) (fsrv : Fsrv)
    (supported : ¬ (sharedmem = true ∧ server.supportShmemFuzz = false)) :
    let limit := if fsrv.mapSize = 0#32 then defaultMapSize else fsrv.mapSize
    let tooLarge := decide (limit < roundMapSize size)
    let outcome := readHello server word fsrv
    outcome.fsrv =
        { snapshot := fsrv.snapshot || snapshots
          useShmemFuzz := fsrv.useShmemFuzz || sharedmem
          mapSize := if tooLarge then limit else roundMapSize size
          realMapSize := size } ∧
      outcome.finish =
        if tooLarge then .mapTooLarge (roundMapSize size)
        else if dictionary = true ∧ server.ignoreAutodict = false then
          if server.addExtra = false then .dictionaryDenied
          else .dictionaryAsked
        else .started := by
  intro limit tooLarge outcome
  have taken : ((fsrv.takeSnapshot word).takeSharedmem word) =
      { fsrv with
        snapshot := fsrv.snapshot || snapshots
        useShmemFuzz := fsrv.useShmemFuzz || sharedmem } := by
    unfold Fsrv.takeSharedmem Fsrv.takeSnapshot
    rw [announces.snapshot, announces.shdmem]
    cases snapshots <;> cases sharedmem <;> simp
  have read : outcome = readHello server word fsrv := rfl
  unfold readHello at read
  simp only [announces.error, announces.enabled, announces.workaround,
    announces.shdmem, if_neg supported, taken, Fsrv.takeMapsize,
    announces.mapsize, announces.size, if_true, Bool.false_eq_true, if_false]
    at read
  by_cases large : limit < roundMapSize size
  · simp only [if_pos (show (if fsrv.mapSize = 0#32 then defaultMapSize else
      fsrv.mapSize) < roundMapSize size from large)] at read
    rw [read]
    simp [tooLarge, large, limit]
  · simp only [if_neg (show ¬ (if fsrv.mapSize = 0#32 then defaultMapSize else
      fsrv.mapSize) < roundMapSize size from large)] at read
    rw [read]
    simp only [tooLarge, large, takeAutodict, announces.autodict]
    refine ⟨by simp, ?_⟩
    split
    · split <;> simp_all
    · simp_all

/-- Every option and every map size of a target comes back from its first
word, and every error code from the word that reports it; none is taken for
another. -/
theorem statusWord_codec :
    (∀ (target : TargetOptions) (snapshots : Bool),
      2#32 ≤ target.mapSize → target.mapSize ≤ fsOptMaxMapsize →
      let word := target.status snapshots
      hasOption word fsOptError = false ∧
        hasOption word fsOptOldAflppWorkaround = false ∧
        ∀ (server : ServerOptions) (fsrv : Fsrv),
          let outcome := readHello server word fsrv
          let limit :=
            if fsrv.mapSize = 0#32 then defaultMapSize else fsrv.mapSize
          if target.sharedmemFuzzing = true ∧ server.supportShmemFuzz = false then
            outcome.finish = .sharedmemUnsupported
          else
            outcome.fsrv.realMapSize = target.mapSize ∧
              outcome.fsrv.snapshot = (fsrv.snapshot || snapshots) ∧
              outcome.fsrv.useShmemFuzz =
                (fsrv.useShmemFuzz || target.sharedmemFuzzing) ∧
              outcome.finish =
                if limit < roundMapSize target.mapSize then
                  .mapTooLarge (roundMapSize target.mapSize)
                else target.dictionaryEnd server) ∧
    (∀ error ∈ forkserverErrors, ∃ word, sendForkserverError error = some word) ∧
    ∀ error word, sendForkserverError error = some word → error.slt 0#32 = false →
      ∀ (server : ServerOptions) (fsrv : Fsrv),
        readHello server word fsrv = ⟨fsrv, [], .reportError error⟩ := by
  refine ⟨?_, ?_, ?_⟩
  · intro target snapshots atLeastTwo bounded
    have positive : target.mapSize ≠ 0#32 := by
      intro zero
      rw [zero] at atLeastTwo
      exact absurd atLeastTwo (by decide)
    have announces := target.status_announces snapshots positive bounded
    refine ⟨announces.error, announces.workaround, ?_⟩
    intro server fsrv
    by_cases unsupported : target.sharedmemFuzzing = true ∧
        server.supportShmemFuzz = false
    · simp [readHello, announces.error, announces.enabled,
        announces.workaround, announces.shdmem, unsupported]
    · obtain ⟨taken, finish⟩ := readHello_announces announces server fsrv unsupported
      simp only [if_neg unsupported, taken, finish, decide_eq_true_iff]
      exact ⟨trivial, trivial, trivial, rfl⟩
  · intro error listed
    simp only [forkserverErrors, List.mem_cons, List.not_mem_nil, or_false]
      at listed
    rcases listed with rfl | rfl | rfl | rfl | rfl <;> exact ⟨_, rfl⟩
  · intro error word sent nonnegative server fsrv
    obtain ⟨rfl, fits⟩ := sendForkserverError_and sent nonnegative
    rw [readHello_forkserverError, fits]

/-- A target with a map of 70000 bytes, snapshots, shared memory test cases and
a dictionary, and the report of a failed `shmat`. -/
theorem statusWord_codec_seventyThousand :
    (let target : TargetOptions := ⟨70000#32, true, [1#8, 65#8], by decide⟩
    let server : ServerOptions := ⟨8388608#32, true, false, true, 9#8⟩
    let outcome := readHello server (target.status true)
      ⟨false, false, 8388608#32, 8388608#32⟩
    outcome.fsrv.realMapSize = 70000#32 ∧ outcome.fsrv.snapshot = true ∧
      outcome.fsrv.useShmemFuzz = true ∧ outcome.finish = .dictionaryAsked) ∧
    ∃ word, sendForkserverError fsErrorShmat = some word ∧
      readHello ⟨8388608#32, true, false, true, 9#8⟩ word
          ⟨false, false, 8388608#32, 8388608#32⟩ =
        ⟨⟨false, false, 8388608#32, 8388608#32⟩, [], .reportError fsErrorShmat⟩ := by
  obtain ⟨options, sent, errors⟩ := statusWord_codec
  constructor
  · exact (options ⟨70000#32, true, [1#8, 65#8], by decide⟩ true (by decide)
      (by decide)).2.2 ⟨8388608#32, true, false, true, 9#8⟩
        ⟨false, false, 8388608#32, 8388608#32⟩
  · obtain ⟨word, isSent⟩ := sent fsErrorShmat (by decide)
    exact ⟨word, isSent, errors fsErrorShmat word isSent (by decide) _ _⟩

/-- Where the fuzzer goes after the first word. -/
def HelloEnd.serverPc : HelloEnd → ServerPc
  | reportError _ | sharedmemUnsupported | mapTooLarge _ => .over
  | started | dictionaryDenied => .idle
  | dictionaryAsked => .waitDictLength

def handshakeWords (answers : List (BitVec 32)) : List ControlWord :=
  answers.map (⟨·, .handshake⟩)

theorem System.takeSharedmem_eq (status : BitVec 32) (fsrv : Fsrv) (system : System)
    (same : fsrv.useShmemFuzz = system.useShmemFuzz) :
    system.takeSharedmem server status =
      { system with
        ctl := system.ctl ++ handshakeWords (sharedmemAnswers server status)
        useShmemFuzz := (fsrv.takeSharedmem status).useShmemFuzz } := by
  unfold takeSharedmem sharedmemAnswers Fsrv.takeSharedmem
  by_cases asks : hasOption status fsOptShdmemFuzz = true
  · by_cases answers : status &&& fsOptAutodict = 0#32 ∨ server.ignoreAutodict = true
    · simp [asks, answers, send, handshakeWords]
    · simp [asks, answers, handshakeWords]
  · simp [asks, same, handshakeWords]

theorem System.takeAutodict_eq (status : BitVec 32) (system : System) :
    system.takeAutodict server status =
      { system with
        ctl := system.ctl ++ handshakeWords
          (AFLPlusPlus.takeAutodict server status system.useShmemFuzz).1
        server := (AFLPlusPlus.takeAutodict server status
          system.useShmemFuzz).2.serverPc } := by
  unfold takeAutodict AFLPlusPlus.takeAutodict
  split
  · split
    · rfl
    · rfl
  · simp [handshakeWords, HelloEnd.serverPc]

theorem Fsrv.takeMapsize_spec (status : BitVec 32) (fsrv : Fsrv) :
    (fsrv.takeMapsize status).1.useShmemFuzz = fsrv.useShmemFuzz ∧
      ((fsrv.takeMapsize status).2 ≠ none ↔
        hasOption status fsOptMapsize = true ∧
          takeMapSize status fsrv.mapSize = none) := by
  unfold takeMapsize takeMapSize
  by_cases announced : hasOption status fsOptMapsize = true
  · by_cases tooLarge :
        (if fsrv.mapSize = 0#32 then defaultMapSize else fsrv.mapSize) <
          roundMapSize (fsOptGetMapsize status)
    · simp [announced, tooLarge]
    · simp [announced, tooLarge]
  · simp [announced]

theorem System.receiveHello_eq_readHello (status : BitVec 32) (snapshot : Bool)
    (realMapSize : BitVec 32) (system : System) :
    let outcome := readHello server status
      ⟨snapshot, system.useShmemFuzz, server.mapSize, realMapSize⟩
    system.receiveHello server status =
      { system with
        ctl := system.ctl ++ handshakeWords outcome.answers
        useShmemFuzz := outcome.fsrv.useShmemFuzz
        server := outcome.finish.serverPc } := by
  intro outcome
  have read : outcome = readHello server status
    ⟨snapshot, system.useShmemFuzz, server.mapSize, realMapSize⟩ := rfl
  unfold readHello at read
  unfold receiveHello
  cases error : hasOption status fsOptError with
  | true =>
      simp only [error, if_true] at read ⊢
      simp [read, HelloEnd.serverPc, handshakeWords]
  | false =>
      cases enabled : hasOption status fsOptEnabled with
      | false =>
          simp only [error, enabled, Bool.false_eq_true, if_false] at read ⊢
          simp [read, HelloEnd.serverPc, handshakeWords]
      | true =>
          simp only [error, enabled, Bool.false_eq_true, if_false, if_true]
            at read ⊢
          generalize (if hasOption status fsOptOldAflppWorkaround = true then
            status &&& 0xf0ffffff#32 else status) = plain at read ⊢
          have sameFlag : ∀ fsrv : Fsrv,
              (fsrv.takeSnapshot plain).useShmemFuzz = fsrv.useShmemFuzz := by
            intro fsrv
            unfold Fsrv.takeSnapshot
            split <;> rfl
          split
          · rename_i unsupported
            simp only [if_pos unsupported] at read
            simp [read, HelloEnd.serverPc, handshakeWords, sameFlag]
          · rename_i supported
            simp only [if_neg supported] at read
            rw [takeSharedmem_eq server plain _ system (sameFlag
              ⟨snapshot, system.useShmemFuzz, server.mapSize, realMapSize⟩)]
            have sameSize : (Fsrv.takeSharedmem plain (Fsrv.takeSnapshot plain
                ⟨snapshot, system.useShmemFuzz, server.mapSize,
                  realMapSize⟩)).mapSize = server.mapSize := by
              unfold Fsrv.takeSharedmem Fsrv.takeSnapshot
              split <;> split <;> rfl
            generalize Fsrv.takeSharedmem plain (Fsrv.takeSnapshot plain
              ⟨snapshot, system.useShmemFuzz, server.mapSize, realMapSize⟩) =
                fsrv at read sameSize ⊢
            obtain ⟨keeps, tooLarge⟩ := fsrv.takeMapsize_spec plain
            rw [sameSize] at tooLarge
            rcases taken : fsrv.takeMapsize plain with ⟨after, size⟩
            rw [taken] at keeps tooLarge
            simp only [taken] at read
            have kept : fsrv.useShmemFuzz = after.useShmemFuzz := keeps.symm
            cases size with
            | some size =>
                rw [if_pos (tooLarge.mp (Option.some_ne_none size)), read]
                simp [kept, HelloEnd.serverPc]
            | none =>
                rw [if_neg fun large => tooLarge.mpr large rfl, takeAutodict_eq, read]
                simp [kept, handshakeWords]

end AFLPlusPlus
