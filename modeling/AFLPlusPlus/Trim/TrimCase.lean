import AFLPlusPlus.Cache.Testcases
import AFLPlusPlus.Coverage.Classify
import AFLPlusPlus.Queue.DryRun
import AFLPlusPlus.Trim.Rewriting

/-!
# Trimming of test cases

`trim_case` removes ranges from a test case as long as the checksum of the
trace stays the one of its queue entry, in blocks that are halved from pass to
pass.  The case is changed in place at once; its file and the test case cache
follow in the end.
-/

namespace AFLPlusPlus.Trim

/-- What a run of the target leaves, and whether the user has stopped the fuzzer
by then. -/
structure TrimRun where
  fault : RunResult
  stopSoon : Bool
  traceBits : Buffer

/-- The condition of the jump to `abort_trimming`. -/
def TrimRun.aborts (run : TrimRun) : Bool :=
  run.stopSoon || decide (run.fault = .error)

/-- The size of the map, `hash64` with `HASH_CONST` as its seed, and the checksum
of the queue entry. -/
structure TrimSettings where
  mapSize : Nat
  hash64 : List (BitVec 8) → BitVec 64
  execCksum : BitVec 64

def TrimSettings.cksum (settings : TrimSettings) (traceBits : Buffer) : BitVec 64 :=
  settings.hash64 (traceBits.loadBytes 0 settings.mapSize)

/-- A copy of the map by `memcpy`. -/
def TrimSettings.copyMap (settings : TrimSettings)
    (destination source : Buffer) : Buffer :=
  destination.storeBytes 0 (source.loadBytes 0 settings.mapSize)

/-- What trimming meets: run number `n` on the case that `write_with_gap` has
delivered, whether the file can be opened, what the calls of `write` return with
`no_unlink`, and what the cache meets. -/
structure TrimEnvironment where
  run : Nat → List (BitVec 8) → TrimRun
  noUnlink : Bool
  opens : Bool
  writes : List Int
  cache : CacheEnvironment

/-- The variables of `trim_case`, with `q->len` and the number of runs. -/
structure Trimming where
  inBuf : Buffer
  len : Nat
  lenP2 : Nat
  needsWrite : Bool
  cleanTrace : Buffer
  traceBits : Buffer
  fault : RunResult
  runs : Nat
  aborted : Bool

/-- Why a call does not return: its loops go on forever, or the file cannot be
written or read. -/
inductive TrimFailure where
  | endless
  | noFile
  deriving DecidableEq

/-- `next_pow2` of a length, as a `u32`. -/
def lenP2 (len : Nat) : Nat := (nextPow2 (BitVec.ofNat 64 len)).toNat % 2 ^ 32

namespace Trimming

def data (trimming : Trimming) : List (BitVec 8) :=
  trimming.inBuf.loadBytes 0 trimming.len

/-- Make a deletion permanent. -/
def remove (settings : TrimSettings) (trimming : Trimming)
    (removePos trimAvail : Nat) : Trimming :=
  let moveTail := trimming.len - removePos - trimAvail
  { trimming with
    len := trimming.len - trimAvail
    lenP2 := Trim.lenP2 (trimming.len - trimAvail)
    inBuf := trimming.inBuf.storeBytes removePos
      (trimming.inBuf.loadBytes (removePos + trimAvail) moveTail)
    needsWrite := true
    cleanTrace :=
      if trimming.needsWrite then trimming.cleanTrace
      else settings.copyMap trimming.cleanTrace trimming.traceBits }

/-- A run was made and its trace is classified. -/
def ran (settings : TrimSettings) (trimming : Trimming) (run : TrimRun) :
    Trimming :=
  { trimming with
    fault := run.fault
    traceBits := bucketed settings.mapSize run.traceBits
    runs := trimming.runs + 1 }

/-- The body of the inner loop, with the next value of `remove_pos`. -/
def round (settings : TrimSettings) (environment : TrimEnvironment)
    (removeLen removePos : Nat) (trimming : Trimming) : Nat × Trimming :=
  let trimAvail := min removeLen (trimming.len - removePos)
  let run := environment.run trimming.runs
    (withoutGap trimming.data removePos trimAvail)
  if run.aborts then
    (removePos,
      { trimming with
        fault := run.fault
        traceBits := run.traceBits
        runs := trimming.runs + 1
        aborted := true })
  else
    let ran := trimming.ran settings run
    if settings.cksum ran.traceBits = settings.execCksum then
      (removePos, ran.remove settings removePos trimAvail)
    else ((removePos + removeLen) % 2 ^ 32, ran)

/-- The inner loop of `trim_case`. -/
def pass (settings : TrimSettings) (environment : TrimEnvironment)
    (removeLen : Nat) :
    Nat → Nat → Trimming → Except TrimFailure Trimming
  | 0, _, _ => .error .endless
  | fuel + 1, removePos, trimming =>
      if trimming.aborted = false ∧ removePos < trimming.len then
        let next := trimming.round settings environment removeLen removePos
        pass settings environment removeLen fuel next.1 next.2
      else .ok trimming

/-- The outer loop of `trim_case`. -/
def passes (settings : TrimSettings) (environment : TrimEnvironment) :
    Nat → Nat → Trimming → Except TrimFailure Trimming
  | 0, _, _ => .error .endless
  | fuel + 1, removeLen, trimming =>
      if trimming.aborted = false ∧
          max (trimming.lenP2 / trimEndSteps) trimMinBytes ≤ removeLen then
        trimming.pass settings environment removeLen fuel removeLen >>=
          passes settings environment fuel (removeLen >>> 1)
      else .ok trimming

/-- The variables at the first pass. -/
def start (inBuf : Buffer) (len : Nat) (cleanTrace traceBits : Buffer) : Trimming where
  inBuf
  len
  lenP2 := Trim.lenP2 len
  needsWrite := false
  cleanTrace
  traceBits
  fault := .ok
  runs := 0
  aborted := false

end Trimming

/-- The test case cache with the queue entry `q`, whose file has `fileLen`
bytes. -/
structure TestcaseCopies where
  afl : TestcaseCache
  q : Nat
  fileLen : Nat

namespace TestcaseCopies

def file (copies : TestcaseCopies) : List (BitVec 8) :=
  (copies.afl.entries copies.q).file.loadBytes 0 copies.fileLen

/-- The buffer from `queue_testcase_get`: that of the cached entry, or one that
the file was read to. -/
def inBuf (copies : TestcaseCopies) : Buffer :=
  (copies.afl.entries copies.q).testcaseBuf.getD
    (copies.afl.entries copies.q).file

/-- `q->len` and `in_buf` are changed in place. -/
def edit (copies : TestcaseCopies) (len : Nat) (inBuf : Buffer) :
    TestcaseCopies :=
  { copies with
    afl := copies.afl.modify copies.q fun entry =>
      { entry with
        len := BitVec.ofNat 32 len
        testcaseBuf := entry.testcaseBuf.map fun _ => inBuf } }

def rewrite (copies : TestcaseCopies) (file : List (BitVec 8)) :
    TestcaseCopies :=
  { copies with
    afl := copies.afl.modify copies.q fun entry =>
      { entry with file := Buffer.storeBytes (fun _ => 0#8) 0 file }
    fileLen := file.length }

/-- `queue_testcase_retake_mem`, where the case is in the buffer of the entry if
there is one. -/
def retakeMem (cache : CacheEnvironment) (copies : TestcaseCopies) (len : Nat)
    (origLen : BitVec 32) : TestcaseCopies :=
  { copies with
    afl := copies.afl.queueTestcaseRetakeMem copies.q none
      (BitVec.ofNat 32 len) origLen cache }

end TestcaseCopies

/-- `trim_case` and its copies of the case. -/
structure TrimState where
  trimming : Trimming
  copies : TestcaseCopies

/-- The end of `trim_case`, behind the loops.  An abort skips all of it. -/
def finish (environment : TrimEnvironment) (settings : TrimSettings)
    (copies : TestcaseCopies) (origLen : BitVec 32) (trimming : Trimming) :
    Except TrimFailure TrimState :=
  let edited := copies.edit trimming.len trimming.inBuf
  if trimming.aborted = false ∧ trimming.needsWrite = true then
    match rewriteFile environment.noUnlink environment.opens environment.writes
        trimming.data with
    | none => .error .noFile
    | some file =>
        .ok
          { trimming :=
              { trimming with
                traceBits := settings.copyMap trimming.traceBits trimming.cleanTrace }
            copies := (edited.rewrite file).retakeMem environment.cache
              trimming.len origLen }
  else .ok { trimming, copies := edited }

/-- A case that a custom trimmer returns, with its run. -/
structure CustomRound where
  retbuf : List (BitVec 8)
  run : TrimRun

/-- The variables of `trim_case_custom`.  With `out_buf` goes
`clean_trace_custom`, which is set at the same time as it is first. -/
structure CustomTrimming where
  outBuf : Option (List (BitVec 8) × Buffer)
  traceBits : Buffer
  fault : RunResult
  aborted : Bool

/-- One round of `trim_case_custom`.  An empty case is not run. -/
def CustomTrimming.round (settings : TrimSettings) (custom : CustomTrimming)
    (next : CustomRound) : CustomTrimming :=
  if custom.aborted = true ∨ next.retbuf = [] then custom
  else if next.run.aborts then
    { custom with
      traceBits := next.run.traceBits
      fault := next.run.fault
      aborted := true }
  else
    let traceBits := bucketed settings.mapSize next.run.traceBits
    { custom with
      outBuf :=
        if settings.cksum traceBits = settings.execCksum then
          some (next.retbuf, (custom.outBuf.map Prod.snd).getD traceBits)
        else custom.outBuf
      traceBits
      fault := next.run.fault }

/-- `trim_case_custom`, with all that the custom mutator returns.  The length of
the case becomes a `u32`. -/
def trimCaseCustom (environment : TrimEnvironment) (settings : TrimSettings)
    (state : TrimState) (rounds : List CustomRound) :
    Except TrimFailure TrimState :=
  let custom := rounds.foldl (CustomTrimming.round settings)
    { outBuf := none
      traceBits := state.trimming.traceBits
      fault := .ok
      aborted := false }
  let ran :=
    { state.trimming with
      fault := custom.fault
      traceBits := custom.traceBits
      aborted := custom.aborted }
  match custom.aborted, custom.outBuf with
  | false, some (outBuf, cleanTraceCustom) =>
      let bytes := outBuf.take (outBuf.length % 2 ^ 32)
      match rewriteFile false environment.opens [] bytes with
      | none => .error .noFile
      | some file =>
          .ok
            { trimming :=
                { ran with
                  len := bytes.length
                  traceBits := settings.copyMap custom.traceBits cleanTraceCustom }
              copies :=
                { state.copies.rewrite file with
                  afl := (state.copies.rewrite file).afl.modify state.copies.q
                    fun entry =>
                      { entry with len := BitVec.ofNat 32 bytes.length } } }
  | _, _ => .ok { state with trimming := ran }

/-- `queue_testcase_retake` for the entry. -/
def retake (environment : TrimEnvironment) (origLen : BitVec 32)
    (state : TrimState) : Except TrimFailure TrimState :=
  match state.copies.afl.queueTestcaseRetake state.copies.q origLen
      environment.cache with
  | .error _ => .error .noFile
  | .ok afl => .ok { state with copies := { state.copies with afl } }

/-- `trim_case`, with what the custom mutators return that have a trimmer. -/
def trimCase (environment : TrimEnvironment) (settings : TrimSettings)
    (customs : List (List CustomRound)) (cleanTrace traceBits : Buffer)
    (fuel : Nat) (copies : TestcaseCopies) : Except TrimFailure TrimState :=
  let origLen := (copies.afl.entries copies.q).len
  let start :=
    { trimming := Trimming.start copies.inBuf origLen.toNat cleanTrace traceBits
      copies : TrimState }
  if customs ≠ [] then
    customs.foldlM (trimCaseCustom environment settings) start >>=
      retake environment origLen
  else if origLen < 5#32 then .ok start
  else
    let removeLen := max (start.trimming.lenP2 / trimStartSteps) trimMinBytes
    start.trimming.passes settings environment fuel removeLen >>=
      finish environment settings copies origLen

/-- The call for a case of at least 5 bytes without custom trimmers. -/
theorem trimCase_builtin {copies : TestcaseCopies} {len : Nat}
    (isLen : (copies.afl.entries copies.q).len.toNat = len)
    (trimmed : 5 ≤ len) (environment : TrimEnvironment)
    (settings : TrimSettings) (cleanTrace traceBits : Buffer) (fuel : Nat) :
    trimCase environment settings [] cleanTrace traceBits fuel copies =
      (Trimming.start copies.inBuf len cleanTrace traceBits).passes settings
          environment fuel (max (lenP2 len / trimStartSteps) trimMinBytes) >>=
        finish environment settings copies
          (copies.afl.entries copies.q).len := by
  subst isLen
  have long : ¬(copies.afl.entries copies.q).len < 5#32 := by
    rw [BitVec.lt_def]
    exact Nat.not_lt.mpr trimmed
  rw [trimCase, if_neg (fun custom => custom rfl), if_neg long]
  rfl

end AFLPlusPlus.Trim
