import AFLPlusPlus.Cache.Testcases
import AFLPlusPlus.Forkserver.Protocol
import AFLPlusPlus.Queue.DryRun
import AFLPlusPlus.Support.Rings
import AFLPlusPlus.Sync.QueueListing
import AFLPlusPlus.Trim.Delivery

/-!
# The persistent record

A target in persistent mode may crash because of the inputs its process had
before.  With `AFL_PERSISTENT_RECORD` the fork server keeps the last inputs in a
ring, which `afl_fsrv_write_to_testcase` fills and `afl_fsrv_run_target` writes
to files when a run crashes.  Whether an input goes to a new process is only
known once it is recorded; the ring is then emptied but for this input.
-/

namespace AFLPlusPlus.Record

open Buffer

/-- The fork server with its record, and the files it has created. -/
structure RecordFsrv where
  fsrv : Trim.Fsrv
  usesAsan : Bool
  usesCrashExitcode : Bool
  crashExitcode : BitVec 8
  killSignal : BitVec 8
  /-- the size of the record -/
  persistentRecord : Nat
  persistentRecordIdx : Nat
  persistentRecordCnt : Nat
  persistentRecordDir : CString
  persistentRecordData : Nat → Option Buffer
  persistentRecordLen : Nat → BitVec 32
  persistentRecordPid : BitVec 32
  childPid : BitVec 32
  lastRunTimedOut : Bool
  lastKillSignal : BitVec 8
  totalExecs : BitVec 64
  files : List (CString × List (BitVec 8))

/-- What happens after a request for a run. -/
structure ChildRun where
  pid : Pid
  /-- what `read_s32_timed` returns -/
  execMs : BitVec 32
  childStatus : BitVec 32
  /-- the status of a child that was killed, unless nothing can be read -/
  statusAfterKill : Option (BitVec 32)
  /-- the first word of `trace_bits` -/
  traceWord : BitVec 32
  /-- which of the files of the record can be created -/
  creates : Nat → Bool

def execFailSig : BitVec 32 := 0xfee1dead#32

def msanError : BitVec 8 := 86#8

def lsanError : BitVec 8 := 23#8

def pathMax : Nat := 4096

def wtermsig (status : BitVec 32) : BitVec 8 := (status &&& 0x7f#32).setWidth 8

def wifsignaled (status : BitVec 32) : Bool :=
  decide (0 < ((wtermsig status + 1#8).sshiftRight 1).toInt)

def wexitstatus (status : BitVec 32) : BitVec 8 :=
  ((status &&& 0xff00#32) >>> 8).setWidth 8

namespace RecordFsrv

/-- The first lines of `afl_fsrv_write_to_testcase`.  The memory of
`afl_realloc` keeps what stood behind the new input. -/
def recordInput (buf : List (BitVec 8)) (fsrv : RecordFsrv) : RecordFsrv :=
  let idx := fsrv.persistentRecordIdx
  let memory := (fsrv.persistentRecordData idx).getD fun _ => 0#8
  { fsrv with
    persistentRecordLen := Function.update fsrv.persistentRecordLen idx
      (BitVec.ofNat 32 buf.length)
    persistentRecordData := Function.update fsrv.persistentRecordData idx
      (some (memory.storeBytes 0 buf))
    persistentRecordIdx :=
      if fsrv.persistentRecord ≤ idx + 1 then 0 else idx + 1 }

/-- `afl_fsrv_write_to_testcase` -/
def writeToTestcase (buf : List (BitVec 8)) (fsrv : RecordFsrv) : Option RecordFsrv :=
  let fsrv :=
    if fsrv.persistentRecord ≠ 0 then fsrv.recordInput buf else fsrv
  (Trim.fsrvWriteToTestcase fsrv.fsrv buf).map fun sent =>
    { fsrv with fsrv := sent }

/-- `write_with_gap`, which has its own code for the delivery. -/
def writeWithGap (mutators : List (Option Trim.PostProcess))
    (mem : List (BitVec 8)) (skipAt skipLen : Nat) (fsrv : RecordFsrv) :
    Option RecordFsrv :=
  (Trim.writeWithGap fsrv.fsrv mutators mem skipAt skipLen).map fun sent =>
    { fsrv with fsrv := sent }

/-- The part of `afl_fsrv_run_target` at the end of a persistent loop: the
record belongs to another child from now on. -/
def resetRecord (pid : BitVec 32) (fsrv : RecordFsrv) : RecordFsrv :=
  if fsrv.persistentRecord ≠ 0 ∧ fsrv.persistentRecordPid ≠ pid then
    let idx :=
      if fsrv.persistentRecordIdx = 0 then fsrv.persistentRecord - 1
      else fsrv.persistentRecordIdx - 1
    let val := fsrv.persistentRecordLen idx
    { fsrv with
      persistentRecordPid := pid
      persistentRecordLen := Function.update (fun _ => 0#32) idx val }
  else fsrv

/-- `"%s/RECORD:%06u,cnt:%06u"` -/
def recordName (dir : CString) (record count : Nat) : CString :=
  (dir ++ "/RECORD:".toList ++ decimal06 record ++ ",cnt:".toList ++
    decimal06 count).take (pathMax - 1)

/-- One round of the loop that writes the record. -/
def writeEntry (creates : Nat → Bool) (fsrv : RecordFsrv)
    (written : Nat × List (CString × List (BitVec 8))) (i : Nat) :
    Option (Nat × List (CString × List (BitVec 8))) :=
  let (writecnt, files) := written
  let entry := (i + fsrv.persistentRecordIdx) % 2 ^ 32 % fsrv.persistentRecord
  let len := fsrv.persistentRecordLen entry
  match fsrv.persistentRecordData entry with
  | none => some (writecnt, files)
  | some data =>
      if len = 0#32 then some (writecnt, files)
      else
        let fn := recordName fsrv.persistentRecordDir
          fsrv.persistentRecordCnt writecnt
        if creates writecnt then
          (Trim.ckWrite (data.loadBytes 0 len.toNat) ⟨[], 0⟩).map fun fd =>
            (writecnt + 1, files ++ [(fn, fd.content)])
        else some (writecnt + 1, files)

/-- The part of `afl_fsrv_run_target` after a crash. -/
def writeRecord (creates : Nat → Bool) (fsrv : RecordFsrv) : Option RecordFsrv :=
  if fsrv.persistentRecord ≠ 0 then
    ((List.range fsrv.persistentRecord).foldlM (writeEntry creates fsrv)
        (0, fsrv.files)).map fun written =>
      { fsrv with
        files := written.2
        persistentRecordCnt := (fsrv.persistentRecordCnt + 1) % 2 ^ 32 }
  else some fsrv

def crashed (status : BitVec 32) (fsrv : RecordFsrv) : Bool :=
  wifsignaled status ||
    (fsrv.usesAsan &&
      (wexitstatus status = msanError || wexitstatus status = lsanError)) ||
    (fsrv.usesCrashExitcode && wexitstatus status = fsrv.crashExitcode)

/-- The end of `afl_fsrv_run_target`. -/
def reportOutcome (run : ChildRun) (status : BitVec 32)
    (fsrv : RecordFsrv) : Option (RunResult × RecordFsrv) :=
  if run.traceWord = execFailSig then some (.error, fsrv)
  else if fsrv.lastRunTimedOut then
    some (.tmout, { fsrv with lastKillSignal := fsrv.killSignal })
  else if fsrv.crashed status then
    (fsrv.writeRecord run.creates).map fun fsrv =>
      (.crash, { fsrv with
        lastKillSignal := if wifsignaled status then wtermsig status else 0#8 })
  else some (.ok, fsrv)

/-- `afl_fsrv_run_target`, unless it gives up on the fork server or is told to
stop. -/
def runTarget (timeout : BitVec 32) (run : ChildRun) (fsrv : RecordFsrv) :
    Option (RunResult × RecordFsrv) :=
  let fsrv := { fsrv with lastRunTimedOut := false, childPid := run.pid.value }
  let fsrv := fsrv.resetRecord run.pid.value
  let timedOut := decide (timeout < run.execMs)
  let answer := if timedOut then run.statusAfterKill else some run.childStatus
  if run.execMs = 0#32 then none
  else answer.bind fun status =>
    { fsrv with
      lastRunTimedOut := timedOut
      childPid := if wifstopped status then fsrv.childPid else 0#32
      totalExecs := fsrv.totalExecs + 1#64 }.reportOutcome run status

end RecordFsrv

/-! ## Executions -/

/-- How a test case is delivered. -/
inductive Writer where
  | writeToTestcase (mem : List (BitVec 8))
  | writeWithGap (mem : List (BitVec 8)) (skipAt skipLen : Nat)

/-- A test case is delivered, and the target is run. -/
structure Execution where
  mutators : List (Option Trim.PostProcess)
  writer : Writer
  timeout : BitVec 32
  run : ChildRun

/-- An input as the child received it, and what `afl_fsrv_write_to_testcase` was
given, if it was called. -/
structure Delivered where
  received : List (BitVec 8)
  given : Option (List (BitVec 8))

/-- The fork server together with the child that had the last run, and the
inputs this child has received.  Successive children have distinct pids. -/
structure Session where
  fsrv : RecordFsrv
  child : Option (BitVec 32)
  inputs : List Delivered

def deliver (execution : Execution) (fsrv : RecordFsrv) :
    Option (Delivered × RecordFsrv) :=
  match execution.writer with
  | .writeToTestcase mem =>
      (Trim.postProcess execution.mutators mem).bind fun buf =>
        (fsrv.writeToTestcase buf).map fun fsrv =>
          (⟨fsrv.fsrv.received, some buf⟩, fsrv)
  | .writeWithGap mem skipAt skipLen =>
      (fsrv.writeWithGap execution.mutators mem skipAt skipLen).map fun fsrv =>
        (⟨fsrv.fsrv.received, none⟩, fsrv)

namespace Session

/-- The inputs of a child, with one more. -/
def inputsWith (session : Session) (pid : BitVec 32) (input : Delivered) :
    List Delivered :=
  if session.child = some pid then session.inputs ++ [input] else [input]

/-- `write_to_testcase` or `write_with_gap`, then `afl_fsrv_run_target`. -/
def execute (execution : Execution) (session : Session) :
    Option (RunResult × Session) :=
  (deliver execution session.fsrv).bind fun (input, fsrv) =>
    (fsrv.runTarget execution.timeout execution.run).map fun (result, fsrv) =>
      let pid := execution.run.pid.value
      (result, ⟨fsrv, some pid, session.inputsWith pid input⟩)

def step (execution : Execution) (session : Session) : Option Session :=
  (session.execute execution).map Prod.snd

end Session

variable {pid : BitVec 32} {input : Delivered} {execution : Execution}
    {inputs : List Delivered} {creates : Nat → Bool} {after : RecordFsrv}
    {result : RunResult} {session : Session} {sent : Trim.Fsrv}

/-! ## The ring -/

namespace RecordFsrv

variable {fsrv : RecordFsrv}

/-- What is recorded in a slot. -/
def entry (fsrv : RecordFsrv) (slot : Nat) : List (BitVec 8) :=
  match fsrv.persistentRecordData slot with
  | none => []
  | some data => data.loadBytes 0 (fsrv.persistentRecordLen slot).toNat

def ring (fsrv : RecordFsrv) : SlotRing (List (BitVec 8)) :=
  ⟨fsrv.entry, fsrv.persistentRecordIdx⟩

def recorded (fsrv : RecordFsrv) : List (List (BitVec 8)) :=
  fsrv.ring.window fsrv.persistentRecord

/-- An input as it is recorded: its length is an `u32`. -/
def cut (buf : List (BitVec 8)) : List (BitVec 8) := buf.take (buf.length % 2 ^ 32)

theorem recordInput_ring (buf : List (BitVec 8)) :
    (fsrv.recordInput buf).ring = fsrv.ring.push fsrv.persistentRecord (cut buf) := by
  have entries : (fsrv.recordInput buf).entry =
      Function.update fsrv.entry fsrv.persistentRecordIdx (cut buf) := by
    funext slot
    by_cases same : slot = fsrv.persistentRecordIdx
    · subst same
      simp only [entry, recordInput, Function.update_self, BitVec.toNat_ofNat]
      have spelled := (spells_storeBytes
        ((fsrv.persistentRecordData fsrv.persistentRecordIdx).getD
          fun _ => 0#8) 0 buf).shorter
        (List.take_prefix (buf.length % 2 ^ 32) buf)
      have read := spelled.loadBytes_eq
      rw [List.length_take, Nat.min_eq_left (Nat.mod_le _ _)] at read
      exact read
    · simp only [entry, recordInput, Function.update_of_ne same]
  simp only [ring, SlotRing.push, entries]
  rfl

section

variable (records : fsrv.persistentRecord ≠ 0) (changed : fsrv.persistentRecordPid ≠ pid)
include records changed

theorem resetRecord_changed :
    fsrv.resetRecord pid =
      let idx := SlotRing.preceding fsrv.persistentRecord
        fsrv.persistentRecordIdx
      { fsrv with
        persistentRecordPid := pid
        persistentRecordLen := Function.update (fun _ => 0#32) idx
          (fsrv.persistentRecordLen idx) } :=
  if_pos ⟨records, changed⟩

theorem resetRecord_ring :
    (fsrv.resetRecord pid).ring = fsrv.ring.keepLatest fsrv.persistentRecord [] := by
  rw [resetRecord_changed records changed]
  have entries : ∀ slot, (fsrv.resetRecord pid).entry slot =
      if slot = SlotRing.preceding fsrv.persistentRecord
        fsrv.persistentRecordIdx then fsrv.entry slot else [] := by
    intro slot
    rw [resetRecord_changed records changed]
    split
    · rename_i latest
      simp only [entry, latest, Function.update_self]
    · rename_i other
      simp only [entry, Function.update_of_ne other]
      split
      · rfl
      · rfl
  rw [resetRecord_changed records changed] at entries
  exact congrArg (SlotRing.mk · fsrv.persistentRecordIdx) (funext entries)

end

theorem resetRecord_same (same : fsrv.persistentRecordPid = pid) :
    fsrv.resetRecord pid = fsrv := by
  rw [resetRecord, if_neg (fun changed => changed.2 same)]

/-! ## Writing the record -/

/-- The files for some inputs, the first of them with this count. -/
def recordFilesFrom (dir : CString) (record count : Nat)
    (contents : List (List (BitVec 8))) : List (CString × List (BitVec 8)) :=
  (contents.zipIdx count).map fun (content, count) =>
    (recordName dir record count, content)

/-- The files of one record. -/
def recordFiles (dir : CString) (record : Nat)
    (contents : List (List (BitVec 8))) : List (CString × List (BitVec 8)) :=
  recordFilesFrom dir record 0 contents

/-- A round writes the next file, if there is something to be written. -/
theorem writeEntry_eq (created : ∀ count, creates count = true)
    (small : fsrv.persistentRecord ≤ 2 ^ 31)
    (inside : fsrv.persistentRecordIdx < fsrv.persistentRecord) {i : Nat}
    (below : i < fsrv.persistentRecord) {content : List (BitVec 8)}
    (isContent : fsrv.entry (SlotRing.position fsrv.persistentRecord
      fsrv.persistentRecordIdx i) = content) (short : content.length < 2 ^ 31)
    (count : Nat) (files : List (CString × List (BitVec 8))) :
    fsrv.writeEntry creates (count, files) i =
      if content ≠ [] then
        some (count + 1, files ++ [(recordName fsrv.persistentRecordDir
          fsrv.persistentRecordCnt count, content)])
      else some (count, files) := by
  have wraps : (i + fsrv.persistentRecordIdx) % 2 ^ 32 %
      fsrv.persistentRecord = SlotRing.position fsrv.persistentRecord
        fsrv.persistentRecordIdx i := by
    have whole : (i + fsrv.persistentRecordIdx) % 2 ^ 32 =
        i + fsrv.persistentRecordIdx := Nat.mod_eq_of_lt (by omega)
    rw [whole]
    rfl
  simp only [writeEntry, wraps]
  simp only [entry] at isContent
  split
  · rename_i nothing
    rw [nothing] at isContent
    rw [if_neg (not_not.mpr isContent.symm)]
  · rename_i data found
    rw [found] at isContent
    simp only at isContent
    have length := congrArg List.length isContent
    rw [length_loadBytes] at length
    by_cases none : content = []
    · rw [none, List.length_nil] at length
      rw [if_pos (BitVec.eq_of_toNat_eq length), if_neg (not_not.mpr none)]
    · have positive : fsrv.persistentRecordLen (SlotRing.position
          fsrv.persistentRecord fsrv.persistentRecordIdx i) ≠ 0#32 := by
        intro zero
        rw [zero] at length
        exact none (List.length_eq_zero_iff.mp length.symm)
      rw [if_neg positive, if_pos (created count), if_pos none, isContent,
        Trim.ckWrite, if_pos short]
      simp [Region.splice]

/-- The rounds for some of the slots. -/
theorem writeEntries_eq (created : ∀ count, creates count = true)
    (small : fsrv.persistentRecord ≤ 2 ^ 31)
    (inside : fsrv.persistentRecordIdx < fsrv.persistentRecord) {rounds : List Nat}
    (below : ∀ i ∈ rounds, i < fsrv.persistentRecord)
    (short : ∀ i ∈ rounds, (fsrv.entry (SlotRing.position
      fsrv.persistentRecord fsrv.persistentRecordIdx i)).length < 2 ^ 31) (count : Nat)
    (files : List (CString × List (BitVec 8))) :
    ∃ last, rounds.foldlM (fsrv.writeEntry creates) (count, files) =
      some (last, files ++ recordFilesFrom fsrv.persistentRecordDir
        fsrv.persistentRecordCnt count
        ((rounds.map fun i => fsrv.entry (SlotRing.position
          fsrv.persistentRecord fsrv.persistentRecordIdx i)).filter
            (· ≠ []))) := by
  induction rounds generalizing count files with
  | nil => exact ⟨count, by simp [recordFilesFrom]⟩
  | cons i rounds induction =>
      have round := writeEntry_eq created small inside (below i (by simp)) rfl
        (short i (by simp)) count files
      have rest := induction (fun i later => below i (by simp [later]))
        fun i later => short i (by simp [later])
      rw [List.foldlM_cons, round]
      split
      · rename_i some
        obtain ⟨last, written⟩ := rest (count + 1) _
        refine ⟨last, written.trans ?_⟩
        rw [List.map_cons, List.filter_cons_of_pos (by simpa using some),
          recordFilesFrom, recordFilesFrom, List.zipIdx_cons, List.map_cons,
          List.append_assoc]
        rfl
      · rename_i none
        obtain ⟨last, written⟩ := rest count files
        refine ⟨last, written.trans ?_⟩
        rw [List.map_cons, List.filter_cons_of_neg (by simpa using none)]

/-- What is recorded and not empty is written, oldest first. -/
theorem writeRecord_files (created : ∀ count, creates count = true)
    (small : fsrv.persistentRecord ≤ 2 ^ 31)
    (inside : fsrv.persistentRecordIdx < fsrv.persistentRecord)
    (short : ∀ content ∈ fsrv.recorded, content.length < 2 ^ 31)
    (written : fsrv.writeRecord creates = some after) :
    after.files = fsrv.files ++ recordFiles fsrv.persistentRecordDir
      fsrv.persistentRecordCnt (fsrv.recorded.filter (· ≠ [])) := by
  have positive : fsrv.persistentRecord ≠ 0 := by omega
  have below : ∀ i ∈ List.range fsrv.persistentRecord,
      i < fsrv.persistentRecord := fun i => List.mem_range.mp
  obtain ⟨last, entries⟩ := writeEntries_eq created small inside below
    (fun i member => short _ (List.mem_map.mpr ⟨i, member, rfl⟩)) 0 fsrv.files
  rw [writeRecord, if_pos positive, entries] at written
  obtain rfl := Option.some.inj written
  rfl

/-! ## A run -/

/-- Neither the record nor where it is written has changed. -/
structure SameRecord (before after : RecordFsrv) : Prop where
  fsrv : after.fsrv = before.fsrv
  size : after.persistentRecord = before.persistentRecord
  ring : after.ring = before.ring
  pid : after.persistentRecordPid = before.persistentRecordPid

/-- A run has begun, and the record belongs to its child. -/
structure Begun (pid : BitVec 32) (before after : RecordFsrv) : Prop where
  fsrv : after.fsrv = before.fsrv
  size : after.persistentRecord = before.persistentRecord
  ring : after.ring =
    if before.persistentRecordPid = pid then before.ring
    else before.ring.keepLatest before.persistentRecord []
  pid : after.persistentRecordPid = pid
  dir : after.persistentRecordDir = before.persistentRecordDir
  count : after.persistentRecordCnt = before.persistentRecordCnt
  files : after.files = before.files

theorem resetRecord_begun (records : fsrv.persistentRecord ≠ 0)
    (pid : BitVec 32) : Begun pid fsrv (fsrv.resetRecord pid) := by
  by_cases same : fsrv.persistentRecordPid = pid
  · rw [resetRecord_same same]
    exact ⟨rfl, rfl, (if_pos same).symm, same, rfl, rfl, rfl⟩
  · have ring := resetRecord_ring records same
    rw [resetRecord_changed records same] at ring ⊢
    exact ⟨rfl, rfl, ring.trans (if_neg same).symm, rfl, rfl, rfl, rfl⟩

theorem writeRecord_same (written : fsrv.writeRecord creates = some after) :
    SameRecord fsrv after := by
  rw [writeRecord] at written
  split at written
  · obtain ⟨entries, _, rfl⟩ := Option.map_eq_some_iff.mp written
    exact ⟨rfl, rfl, rfl, rfl⟩
  · obtain rfl := Option.some.inj written
    exact ⟨rfl, rfl, rfl, rfl⟩

/-- The record stays as it is, and is written after a crash. -/
theorem reportOutcome_record {run : ChildRun} {status : BitVec 32}
    (reported : fsrv.reportOutcome run status = some (result, after)) :
    SameRecord fsrv after ∧ (result = .crash →
      ∃ written, fsrv.writeRecord run.creates = some written ∧
        after.files = written.files) := by
  rw [reportOutcome] at reported
  split at reported
  · cases reported
    exact ⟨⟨rfl, rfl, rfl, rfl⟩, nofun⟩
  · split at reported
    · cases reported
      exact ⟨⟨rfl, rfl, rfl, rfl⟩, nofun⟩
    · split at reported
      · obtain ⟨written, isWritten, same⟩ := Option.map_eq_some_iff.mp reported
        cases same
        have record := writeRecord_same isWritten
        exact ⟨{ record with },
          fun _ => ⟨written, isWritten, rfl⟩⟩
      · cases reported
        exact ⟨⟨rfl, rfl, rfl, rfl⟩, nofun⟩

theorem runTarget_record {timeout : BitVec 32} {run : ChildRun}
    (records : fsrv.persistentRecord ≠ 0)
    (ran : fsrv.runTarget timeout run = some (result, after)) :
    ∃ begun, Begun run.pid.value fsrv begun ∧ SameRecord begun after ∧
      (result = .crash → ∃ written,
        begun.writeRecord run.creates = some written ∧
          after.files = written.files) := by
  rw [runTarget] at ran
  split at ran
  · cases ran
  · obtain ⟨status, _, reported⟩ := Option.bind_eq_some_iff.mp ran
    have reset := @resetRecord_begun { fsrv with
      lastRunTimedOut := false
      childPid := run.pid.value } records run.pid.value
    refine ⟨_, ?_, reportOutcome_record reported⟩
    exact { reset with }

end RecordFsrv

/-! ## Deliveries -/

section Deliveries

variable {mutators : List (Option Trim.PostProcess)}
  {mem buf head tail : List (BitVec 8)}

theorem memcpyShmem_mode {fsrv : Trim.Fsrv} (copied : fsrv.memcpyShmem buf = some sent) :
    sent.useShmemFuzz = fsrv.useShmemFuzz := by
  rw [Trim.Fsrv.memcpyShmem] at copied
  split at copied
  · obtain rfl := Option.some.inj copied
    rfl
  · cases copied

theorem fsrvWriteToTestcase_mode {fsrv : Trim.Fsrv}
    (written : Trim.fsrvWriteToTestcase fsrv buf = some sent) :
    sent.useShmemFuzz = fsrv.useShmemFuzz := by
  rw [Trim.fsrvWriteToTestcase] at written
  split at written
  · have mode := memcpyShmem_mode written
    exact mode
  · obtain ⟨fd, _, rfl⟩ := Option.map_eq_some_iff.mp written
    rfl

theorem gapToShmem_mode {fsrv : Trim.Fsrv} {processed : Option (List (BitVec 8))}
    (written : Trim.gapToShmem fsrv head tail processed = some sent) :
    sent.useShmemFuzz = fsrv.useShmemFuzz := by
  cases processed with
  | some newMem => exact memcpyShmem_mode written
  | none =>
      obtain ⟨middle, first, second⟩ := Option.bind_eq_some_iff.mp written
      exact (memcpyShmem_mode second).trans (memcpyShmem_mode first)

theorem writeWithGap_mode {fsrv : Trim.Fsrv} {skipAt skipLen : Nat}
    (written : Trim.writeWithGap fsrv mutators mem skipAt skipLen =
      some sent) : sent.useShmemFuzz = fsrv.useShmemFuzz := by
  obtain ⟨processed, _, delivered⟩ := Option.bind_eq_some_iff.mp written
  simp only at delivered
  split at delivered
  · obtain ⟨copied, isCopied, rfl⟩ := Option.map_eq_some_iff.mp delivered
    have mode := gapToShmem_mode isCopied
    exact mode
  · obtain ⟨fd, _, rfl⟩ := Option.map_eq_some_iff.mp delivered
    rfl

/-- What a child receives of an input that `afl_fsrv_write_to_testcase` was
given. -/
def Delivered.Fits (shmem : Bool) (input : Delivered) : Prop :=
  ∀ buf, input.given = some buf →
    if shmem then input.received = buf.take maxFile
    else input.received = buf ∧ buf.length < 2 ^ 31

theorem fsrvWriteToTestcase_fits {fsrv : Trim.Fsrv}
    (written : Trim.fsrvWriteToTestcase fsrv buf = some sent) :
    Delivered.Fits fsrv.useShmemFuzz ⟨sent.received, some buf⟩ := by
  intro given same
  obtain rfl := Option.some.inj same
  split
  · rename_i shmem
    have received := Trim.fsrvWriteToTestcase_shmem shmem buf
    rw [written] at received
    exact Option.some.inj received
  · rename_i file
    have received := Trim.fsrvWriteToTestcase_file
      (Bool.eq_false_iff.mpr file) buf
    rw [written, Option.map_some] at received
    split at received
    · rename_i short
      exact ⟨Option.some.inj received, short⟩
    · cases received

/-- The record after an input was delivered. -/
structure Sent (input : Delivered) (before after : RecordFsrv) : Prop where
  mode : after.fsrv.useShmemFuzz = before.fsrv.useShmemFuzz
  fits : input.Fits before.fsrv.useShmemFuzz
  size : after.persistentRecord = before.persistentRecord
  ring : after.ring =
    match input.given with
    | some buf => before.ring.push before.persistentRecord (RecordFsrv.cut buf)
    | none => before.ring
  pid : after.persistentRecordPid = before.persistentRecordPid
  dir : after.persistentRecordDir = before.persistentRecordDir
  count : after.persistentRecordCnt = before.persistentRecordCnt
  files : after.files = before.files

theorem deliver_sent {fsrv sent : RecordFsrv} (records : fsrv.persistentRecord ≠ 0)
    (delivered : deliver execution fsrv = some (input, sent)) :
    Sent input fsrv sent := by
  rw [deliver] at delivered
  split at delivered
  · obtain ⟨buf, _, written⟩ := Option.bind_eq_some_iff.mp delivered
    obtain ⟨after, isAfter, same⟩ := Option.map_eq_some_iff.mp written
    cases same
    rw [RecordFsrv.writeToTestcase, if_pos records] at isAfter
    obtain ⟨copied, isCopied, rfl⟩ := Option.map_eq_some_iff.mp isAfter
    exact ⟨fsrvWriteToTestcase_mode isCopied, fsrvWriteToTestcase_fits isCopied, rfl,
      RecordFsrv.recordInput_ring buf, rfl, rfl, rfl, rfl⟩
  · obtain ⟨after, isAfter, same⟩ := Option.map_eq_some_iff.mp delivered
    cases same
    obtain ⟨copied, isCopied, rfl⟩ := Option.map_eq_some_iff.mp isAfter
    exact ⟨writeWithGap_mode isCopied, nofun, rfl, rfl, rfl, rfl, rfl, rfl⟩

end Deliveries

/-! ## Whole runs -/

/-- A record of this size, as `afl_fsrv_start` leaves it; for a larger one
`ck_alloc` has no memory. -/
structure RecordFsrv.Started (size : Nat) (fsrv : RecordFsrv) : Prop where
  isSize : fsrv.persistentRecord = size
  positive : 0 < size
  allocated : size * 8 ≤ maxAlloc
  index : fsrv.persistentRecordIdx = 0
  pid : fsrv.persistentRecordPid = 0#32
  data : ∀ slot, fsrv.persistentRecordData slot = none
  len : ∀ slot, fsrv.persistentRecordLen slot = 0#32

def Session.start (fsrv : RecordFsrv) : Session := ⟨fsrv, none, []⟩

/-- The last inputs of a child that are not empty, as many as there are in the
record. -/
def lastNonEmpty (size : Nat) (inputs : List Delivered) : List (List (BitVec 8)) :=
  ((inputs.map Delivered.received).filter (· ≠ [])).rtake
    (min size inputs.length)

/-- The files of a record with the last inputs of a child are written. -/
def Faithful (size : Nat) (session next : Session) : Prop :=
  next.fsrv.files = session.fsrv.files ++
    RecordFsrv.recordFiles session.fsrv.persistentRecordDir
      session.fsrv.persistentRecordCnt (lastNonEmpty size next.inputs)

/-- The input was given to `afl_fsrv_write_to_testcase`, and all of it was
delivered. -/
def Delivered.Recorded (shmem : Bool) (input : Delivered) : Prop :=
  ∃ buf, input.given = some buf ∧ (shmem = true → buf.length ≤ maxFile)

/-- The last inputs of a child, as many as there is room for, are recorded.
None of them is empty, or all that came before them are. -/
def WindowRecorded (size : Nat) (shmem : Bool) (inputs : List Delivered) :
    Prop :=
  (∀ input ∈ inputs.rtake size, input.Recorded shmem) ∧
    ((∀ input ∈ inputs.rtake size, input.received ≠ []) ∨
      ∀ input ∈ inputs.rdrop size, input.received = [])

/-- The inputs that were recorded. -/
def recordedInputs (inputs : List Delivered) : List (List (BitVec 8)) :=
  inputs.filterMap fun input => input.given.map RecordFsrv.cut

/-- The window of a record: the inputs of the child that were recorded, and
before them, if the first was not, what was recorded last. -/
def WindowOf (size : Nat) (window : List (List (BitVec 8)))
    (inputs : List Delivered) : Prop :=
  ∃ stale : List (List (BitVec 8)),
    (stale ≠ [] → ∃ first rest, inputs = first :: rest ∧ first.given = none) ∧
      window = (List.replicate size [] ++ stale ++ recordedInputs inputs).rtake size

/-- The record between two executions. -/
structure Kept (size : Nat) (shmem : Bool) (session : Session) : Prop where
  isSize : session.fsrv.persistentRecord = size
  mode : session.fsrv.fsrv.useShmemFuzz = shmem
  inside : session.fsrv.ring.next < size
  owner : session.fsrv.persistentRecordPid = session.child.getD 0#32
  fits : ∀ input ∈ session.inputs, input.Fits shmem
  window : session.child ≠ none → WindowOf size session.fsrv.recorded session.inputs

section Runs

variable {size : Nat} {shmem : Bool}

theorem Delivered.Recorded.given_eq (recorded : input.Recorded shmem)
    (fits : input.Fits shmem) :
    input.given.map RecordFsrv.cut = some input.received ∧
      input.received.length < 2 ^ 31 := by
  obtain ⟨buf, given, short⟩ := recorded
  have received := fits buf given
  have isReceived : input.received = buf ∧ buf.length < 2 ^ 31 := by
    cases shmem with
    | true =>
        have limit : maxFile = 2 ^ 20 := rfl
        have fitting := short rfl
        rw [if_pos rfl, List.take_of_length_le fitting] at received
        exact ⟨received, by omega⟩
    | false => exact received
  have whole : RecordFsrv.cut buf = buf := by
    rw [RecordFsrv.cut, Nat.mod_eq_of_lt (by omega), List.take_length]
  rw [given, Option.map_some, whole, isReceived.1]
  exact ⟨rfl, isReceived.2⟩

theorem filterMap_recorded (recorded : ∀ input ∈ inputs, input.Recorded shmem)
    (fits : ∀ input ∈ inputs, input.Fits shmem) :
    recordedInputs inputs = inputs.map Delivered.received := by
  rw [recordedInputs, ← List.filterMap_eq_map]
  apply List.filterMap_congr
  intro input member
  exact ((recorded input member).given_eq (fits input member)).1

/-- The record of a child whose last inputs were recorded. -/
theorem WindowOf.eq_received {window : List (List (BitVec 8))}
    (windowOf : WindowOf size window inputs) (fits : ∀ input ∈ inputs, input.Fits shmem)
    (recorded : ∀ input ∈ inputs.rtake size, input.Recorded shmem) :
    window.filter (· ≠ []) =
      ((inputs.rtake size).map Delivered.received).filter (· ≠ []) := by
  obtain ⟨stale, first, rfl⟩ := windowOf
  have blank : ∀ item ∈ List.replicate size ([] : List (BitVec 8)),
      decide (item ≠ []) = false := by
    intro item member
    simp [List.eq_of_mem_replicate member]
  rw [List.append_assoc, List.filter_rtake_append blank]
  congr 1
  have parts := List.rdrop_append_rtake inputs size
  have last := filterMap_recorded recorded fun input member =>
    fits input (List.mem_of_mem_drop member)
  have length := List.length_rtake inputs size
  by_cases full : size ≤ inputs.length
  · have recordedParts : recordedInputs inputs =
        recordedInputs (inputs.rdrop size) ++
          (inputs.rtake size).map Delivered.received := by
      rw [← last, recordedInputs, recordedInputs, recordedInputs,
        ← List.filterMap_append, parts]
    rw [recordedParts, ← List.append_assoc, List.rtake_append, List.length_map, length, Nat.min_eq_left full,
      Nat.sub_self, List.rtake_zero, List.nil_append]
    apply List.rtake_of_length_le
    rw [List.length_map, length]
    exact Nat.min_le_left _ _
  · have short : inputs.length ≤ size := by omega
    rw [List.rtake_of_length_le short] at recorded last ⊢
    have none : stale = [] := by
      by_contra some
      obtain ⟨input, rest, rfl, notGiven⟩ := first some
      obtain ⟨buf, given, _⟩ := recorded input (by simp)
      rw [notGiven] at given
      cases given
    rw [none, List.nil_append, last, List.rtake_of_length_le]
    rwa [List.length_map]

theorem recordedInputs_append (inputs : List Delivered) (input : Delivered) :
    recordedInputs (inputs ++ [input]) =
      recordedInputs inputs ++ (input.given.map RecordFsrv.cut).toList := by
  rw [recordedInputs, List.filterMap_append]
  cases given : input.given <;> simp [recordedInputs, given]

/-- One more input of the same child. -/
theorem WindowOf.push {ring : SlotRing (List (BitVec 8))} (inside : ring.next < size)
    (windowOf : WindowOf size (ring.window size) inputs) (input : Delivered) :
    WindowOf size
      ((match input.given with
        | some buf => ring.push size (RecordFsrv.cut buf)
        | none => ring).window size) (inputs ++ [input]) := by
  obtain ⟨stale, first, isWindow⟩ := windowOf
  refine ⟨stale, fun some => ?_, ?_⟩
  · obtain ⟨oldest, rest, rfl, notGiven⟩ := first some
    exact ⟨oldest, rest ++ [input], rfl, notGiven⟩
  · rw [recordedInputs_append]
    cases input.given with
    | none => simpa using isWindow
    | some buf =>
        rw [SlotRing.window_push inside, isWindow, List.rtake_rtake_concat]
        simp

/-- The first input of a child. -/
theorem WindowOf.first {ring : SlotRing (List (BitVec 8))}
    (inside : ring.next < size) (input : Delivered) :
    WindowOf size
      (((match input.given with
        | some buf => ring.push size (RecordFsrv.cut buf)
        | none => ring).keepLatest size []).window size) [input] := by
  obtain ⟨before, rfl⟩ := Nat.exists_eq_add_of_le'
    (Nat.zero_lt_of_lt inside)
  have blanks : (List.replicate (before + 1)
      ([] : List (BitVec 8))).rtake before = List.replicate before [] := by
    simp [List.rtake]
  cases given : input.given with
  | none =>
      refine ⟨[ring.latest (before + 1)], fun _ => ⟨input, [], rfl, given⟩, ?_⟩
      rw [SlotRing.window_keepLatest inside]
      simp [recordedInputs, given, List.rtake_concat_succ, blanks]
  | some buf =>
      have pushed : (ring.push (before + 1) (RecordFsrv.cut buf)).next <
          before + 1 := SlotRing.following_lt (Nat.zero_lt_of_lt inside) _
      refine ⟨[], nofun, ?_⟩
      rw [SlotRing.window_keepLatest pushed, SlotRing.latest_push inside]
      simp [recordedInputs, given, List.rtake_concat_succ, blanks]

theorem Session.start_kept {fsrv : RecordFsrv} (started : fsrv.Started size) :
    Kept size fsrv.fsrv.useShmemFuzz (.start fsrv) where
  isSize := started.isSize
  mode := rfl
  inside := by
    rw [show (Session.start fsrv).fsrv.ring.next = 0 from started.index]
    exact started.positive
  owner := started.pid
  fits := nofun
  window := fun child => absurd rfl child

/-- The record after an input was delivered and its run has begun. -/
theorem Kept.begun {sent begun : RecordFsrv} (positive : pid ≠ 0#32)
    (kept : Kept size shmem session) (isSent : Sent input session.fsrv sent)
    (hasBegun : RecordFsrv.Begun pid sent begun) :
    Kept size shmem ⟨begun, some pid, session.inputsWith pid input⟩ := by
  have isSize : sent.persistentRecord = size := isSent.size.trans kept.isSize
  have mode : sent.fsrv.useShmemFuzz = shmem := isSent.mode.trans kept.mode
  have fits : input.Fits shmem := kept.mode ▸ isSent.fits
  have sentRing := isSent.ring
  rw [kept.isSize] at sentRing
  have inside : sent.ring.next < size := by
    rw [sentRing]
    split
    · exact SlotRing.following_lt (Nat.zero_lt_of_lt kept.inside) _
    · exact kept.inside
  have owner : sent.persistentRecordPid = session.child.getD 0#32 :=
    isSent.pid.trans kept.owner
  have begunRing := hasBegun.ring
  rw [isSize] at begunRing
  refine ⟨hasBegun.size.trans isSize, ?_, ?_, hasBegun.pid, ?_, ?_⟩
  · rw [hasBegun.fsrv]
    exact mode
  · rw [begunRing]
    split
    · exact inside
    · exact inside
  · simp only [Session.inputsWith]
    split
    · intro other member
      cases List.mem_append.mp member with
      | inl older => exact kept.fits other older
      | inr last =>
          obtain rfl := List.mem_singleton.mp last
          exact fits
    · intro other member
      obtain rfl := List.mem_singleton.mp member
      exact fits
  · intro _
    simp only [RecordFsrv.recorded, hasBegun.size, isSize, begunRing]
    by_cases same : session.child = some pid
    · have samePid : sent.persistentRecordPid = pid := by
        rw [owner, same]
        rfl
      have older := kept.window (by simp [same])
      rw [RecordFsrv.recorded, kept.isSize] at older
      rw [if_pos samePid, Session.inputsWith, if_pos same, sentRing]
      exact older.push kept.inside input
    · have otherPid : sent.persistentRecordPid ≠ pid := by
        rw [owner]
        cases child : session.child with
        | none => exact positive.symm
        | some before =>
            intro isPid
            exact same (child.trans (congrArg some isPid))
      rw [if_neg otherPid, Session.inputsWith, if_neg same, sentRing]
      exact .first kept.inside input

/-- An execution, from the delivery to the report. -/
theorem Kept.execute {next : Session} (kept : Kept size shmem session)
    (executed : session.execute execution = some (result, next)) :
    ∃ begun : RecordFsrv, Kept size shmem ⟨begun, next.child, next.inputs⟩ ∧
      next.child ≠ none ∧ RecordFsrv.SameRecord begun next.fsrv ∧
      begun.persistentRecordDir = session.fsrv.persistentRecordDir ∧
      begun.persistentRecordCnt = session.fsrv.persistentRecordCnt ∧
      begun.files = session.fsrv.files ∧
      (result = .crash → ∃ written,
        begun.writeRecord execution.run.creates = some written ∧
          next.fsrv.files = written.files) := by
  obtain ⟨⟨input, sent⟩, delivered, rest⟩ := Option.bind_eq_some_iff.mp executed
  obtain ⟨⟨reported, after⟩, ran, same⟩ := Option.map_eq_some_iff.mp rest
  cases same
  have positive := Nat.zero_lt_of_lt kept.inside
  have isSent := deliver_sent (by rw [kept.isSize]; omega) delivered
  have records : sent.persistentRecord ≠ 0 := by
    rw [isSent.size, kept.isSize]
    omega
  obtain ⟨begun, hasBegun, sameRecord, crash⟩ :=
    RecordFsrv.runTarget_record records ran
  have notZero : execution.run.pid.value ≠ 0#32 := by
    intro zero
    have isPositive := execution.run.pid.positive
    rw [zero] at isPositive
    exact absurd isPositive (by decide)
  exact ⟨begun, kept.begun notZero isSent hasBegun, nofun, sameRecord,
    hasBegun.dir.trans isSent.dir, hasBegun.count.trans isSent.count,
    hasBegun.files.trans isSent.files, crash⟩

theorem Kept.step {next : Session} (kept : Kept size shmem session)
    (stepped : session.step execution = some next) :
    Kept size shmem next := by
  obtain ⟨⟨result, after⟩, executed, rfl⟩ := Option.map_eq_some_iff.mp stepped
  obtain ⟨begun, keptBegun, _, same, _⟩ := kept.execute executed
  refine ⟨same.size.trans keptBegun.isSize, ?_, ?_, ?_, keptBegun.fits, ?_⟩
  · rw [same.fsrv]
    exact keptBegun.mode
  · rw [same.ring]
    exact keptBegun.inside
  · rw [same.pid]
    exact keptBegun.owner
  · intro child
    have window := keptBegun.window child
    rw [RecordFsrv.recorded] at window ⊢
    rw [same.ring, same.size]
    exact window

/-- In every run, with children ending at any point, a crash leaves the last
inputs of its child, if these were recorded. -/
theorem record_faithful {fsrv : RecordFsrv} (started : fsrv.Started size)
    {executions : List Execution} {session : Session}
    (runs : runMoves Session.step executions (.start fsrv) = some session)
    {execution : Execution} {next : Session}
    (executed : session.execute execution = some (.crash, next))
    (creates : ∀ count, execution.run.creates count = true)
    (recorded : WindowRecorded size fsrv.fsrv.useShmemFuzz next.inputs) :
    Faithful size session next := by
  have kept : Kept size fsrv.fsrv.useShmemFuzz session :=
    runMoves_invariant _ (fun _ _ _ holds stepped => holds.step stepped)
      (Session.start_kept started) runs
  obtain ⟨begun, keptBegun, hasChild, _, dir, count, files, crash⟩ :=
    kept.execute executed
  obtain ⟨written, isWritten, isFiles⟩ := crash rfl
  have received := (keptBegun.window hasChild).eq_received keptBegun.fits
    recorded.1
  have limit : maxAlloc = 2 ^ 30 := rfl
  have allocated := started.allocated
  have isSize : begun.persistentRecord = size := keptBegun.isSize
  have small : begun.persistentRecord ≤ 2 ^ 31 := by omega
  have inside : begun.persistentRecordIdx < begun.persistentRecord :=
    isSize ▸ keptBegun.inside
  have short : ∀ content ∈ begun.recorded, content.length < 2 ^ 31 := by
    intro content member
    by_cases none : content = []
    · rw [none]
      exact Nat.two_pow_pos 31
    · have kept : content ∈ begun.recorded.filter (· ≠ []) :=
        List.mem_filter.mpr ⟨member, decide_eq_true none⟩
      rw [received] at kept
      obtain ⟨input, isInput, rfl⟩ := List.mem_map.mp (List.mem_filter.mp kept).1
      exact ((recorded.1 input isInput).given_eq
        (keptBegun.fits input (List.mem_of_mem_drop isInput))).2
  have clear :
      (∀ content ∈ (next.inputs.map Delivered.received).rtake size,
          decide (content ≠ []) = true) ∨
        ∀ content ∈ (next.inputs.map Delivered.received).rdrop size,
          decide (content ≠ []) = false := by
    apply recorded.2.imp
    · intro full content member
      rw [List.rtake, List.length_map, ← List.map_drop] at member
      obtain ⟨input, isInput, rfl⟩ := List.mem_map.mp member
      exact decide_eq_true (full input isInput)
    · intro empty content member
      rw [List.rdrop, List.length_map, ← List.map_take] at member
      obtain ⟨input, isInput, rfl⟩ := List.mem_map.mp member
      exact decide_eq_false (not_not.mpr (empty input isInput))
  have expected := List.filter_rtake clear
  rw [List.length_map, List.rtake, List.length_map, ← List.map_drop]
    at expected
  rw [Faithful, isFiles, RecordFsrv.writeRecord_files creates small inside short
    isWritten, dir, count, files, received, List.rtake, expected]
  rfl

end Runs

/-- A record of two inputs for a target that reads its standard input. -/
def emptyRecord : RecordFsrv where
  fsrv := ⟨false, true, fun _ => 0#8, 0#32, []⟩
  usesAsan := false
  usesCrashExitcode := false
  crashExitcode := 0#8
  killSignal := sigkill
  persistentRecord := 2
  persistentRecordIdx := 0
  persistentRecordCnt := 0
  persistentRecordDir := "out/crashes".toList
  persistentRecordData := fun _ => none
  persistentRecordLen := fun _ => 0#32
  persistentRecordPid := 0#32
  childPid := 0#32
  lastRunTimedOut := false
  lastKillSignal := 0#8
  totalExecs := 0#64
  files := []

theorem emptyRecord_started : emptyRecord.Started 2 :=
  ⟨rfl, by decide, by decide, rfl, rfl, fun _ => rfl, fun _ => rfl⟩

/-- A run of the child 100. -/
def childRun (childStatus : BitVec 32) : ChildRun where
  pid := ⟨100#32, by decide⟩
  execMs := 1#32
  childStatus := childStatus
  statusAfterKill := none
  traceWord := 0#32
  creates := fun _ => true

/-- A run that ends at the stop of the persistent loop, and one that is
aborted. -/
def stoppedThenAborted : Execution × Execution :=
  (⟨[], .writeToTestcase [7#8], 20#32, childRun stoppedStatus⟩,
    ⟨[], .writeToTestcase [8#8, 9#8], 20#32, childRun 6#32⟩)

theorem record_faithful_stoppedThenAborted :
    ∃ session next,
      runMoves Session.step [stoppedThenAborted.1] (.start emptyRecord) =
        some session ∧
      session.execute stoppedThenAborted.2 = some (.crash, next) ∧
      next.inputs.map Delivered.received = [[7#8], [8#8, 9#8]] ∧
      Faithful 2 session next := by
  refine ⟨_, _, rfl, rfl, rfl,
    @record_faithful 2 emptyRecord emptyRecord_started [stoppedThenAborted.1] _
      rfl stoppedThenAborted.2 _ rfl (fun _ => rfl) ⟨?_, .inr nofun⟩⟩
  intro input member
  cases member with
  | head => exact ⟨_, rfl, nofun⟩
  | tail _ member =>
      cases member with
      | head => exact ⟨_, rfl, nofun⟩
      | tail _ member => cases member

def trimmedCrash : Execution :=
  ⟨[], .writeWithGap [1#8, 2#8, 3#8] 1 1, 20#32, childRun 6#32⟩

/-- The input that crashed the child is not in the record. -/
theorem record_trimmed :
    emptyRecord.Started 2 ∧ (∀ count, trimmedCrash.run.creates count = true) ∧
      ∃ next, (Session.start emptyRecord).execute trimmedCrash = some (.crash, next) ∧
        lastNonEmpty 2 next.inputs = [[1#8, 3#8]] ∧ next.fsrv.files = [] ∧
        ¬ Faithful 2 (.start emptyRecord) next := by
  refine ⟨emptyRecord_started, fun _ => rfl, _, rfl, rfl, rfl, ?_⟩
  intro faithful
  cases faithful

end AFLPlusPlus.Record
