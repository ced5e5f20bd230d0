import AFLPlusPlus.Forkserver.MapSize
import AFLPlusPlus.Minimize.Showmap
import AFLPlusPlus.Support.Loops
import AFLPlusPlus.Support.Regions

/-!
# The coverage of a directory tree

With `-C`, `afl-showmap` runs the target on the files of a directory tree and
writes one map for all of them.  It is gathered in `coverage_map`, which comes
from `malloc` and is only ever set.
-/

namespace AFLPlusPlus

/-- What a run of the target leaves. -/
structure CoverageRun where
  traceBits : Buffer
  lastRunTimedOut : Bool
  /-- `WIFSIGNALED` of the status -/
  signaled : Bool

def CoverageRun.childCrashed (run : CoverageRun) : Bool :=
  !run.lastRunTimedOut && run.signaled

/-- What `afl-showmap -C` is started with, and what it meets. -/
structure CollectSettings where
  /-- `map_size` when `coverage_map` is allocated, as it was set up before -/
  mapSize : BitVec 32
  positive : mapSize ≠ 0#32
  /-- what the fork server announces when it is started again -/
  status : BitVec 32
  /-- what `malloc` returns -/
  memory : List (BitVec 8)
  allocated : memory.length = mapSize.toNat + 64
  noClassify : Bool
  binaryMode : Bool
  cminMode : Bool
  /-- `AFL_CMIN_CRASHES_ONLY` is set -/
  cco : Bool
  /-- `AFL_CMIN_ALLOW_ANY` is set -/
  caa : Bool
  /-- what run number `done` leaves for an input -/
  target : (done : Nat) → List (BitVec 8) → CoverageRun

/-- How the program ends early. -/
inductive CollectExit where
  | outOfBounds
  | handshakeFailed
  | noTestcases
  deriving DecidableEq

/-- The variables of the program. -/
structure Collecting where
  mapSize : Nat
  coverageMap : List (BitVec 8)
  done : Nat
  lastRunTimedOut : Bool
  childCrashed : Bool

/-- The map that is written: as it is, or a line for each tuple. -/
inductive CoverageReport where
  | binary (traceBits : List (BitVec 8))
  | tuples (lines : List (Nat × BitVec 8))

/-- The map that was written is not zero at an index. -/
def CoverageReport.NonzeroAt (i : Nat) : CoverageReport → Prop
  | .binary traceBits => ∃ byte, traceBits[i]? = some byte ∧ byte ≠ 0#8
  | .tuples lines => ∃ byte, (i, byte) ∈ lines ∧ byte ≠ 0#8

/-- `classify_counts`, where `raw_instr_output` is set. -/
def classifyRaw (mapSize : Nat) (edgesOnly : Bool) (traceBits : Buffer) :
    Buffer := fun i =>
  if i < mapSize ∧ edgesOnly = true ∧ traceBits i ≠ 0#8 then 1#8
  else traceBits i

namespace Collecting

/-- One round of `analyze_results`. -/
def analyzeByte (traceBits : Buffer) (i : Nat)
    (coverageMap : List (BitVec 8)) :
    Except CollectExit (List (BitVec 8)) :=
  if traceBits i ≠ 0#8 then
    match coverageMap[i]? with
    | none => .error .outOfBounds
    | some byte =>
        .ok (if byte = 0#8 then coverageMap.set i 1#8 else coverageMap)
  else .ok coverageMap

def analyzeResults (mapSize : Nat) (traceBits : Buffer)
    (coverageMap : List (BitVec 8)) :
    Except CollectExit (List (BitVec 8)) :=
  forRangeM (analyzeByte traceBits) mapSize coverageMap

end Collecting

namespace CollectSettings

variable (settings : CollectSettings)

/-- The trace that `showmap_run_target_forkserver` leaves; a first byte of 1 only
tells that there is coverage at all. -/
def traceOf (mapSize : Nat) (run : CoverageRun) : Buffer :=
  let traceBits :=
    if run.traceBits 0 = 1#8 then Function.update run.traceBits 0 0#8
    else run.traceBits
  -- `main` has turned `edges_only` off
  if settings.noClassify then traceBits else classifyRaw mapSize false traceBits

/-- The part of `execute_testcases` for a file with content. -/
def executeTestcase (collecting : Collecting) (file : CorpusFile) :
    Except CollectExit Collecting :=
  let inData := file.content.take maxFile
  let run := settings.target collecting.done inData
  (Collecting.analyzeResults collecting.mapSize
      (settings.traceOf collecting.mapSize run) collecting.coverageMap).map
    fun coverageMap =>
      { collecting with
        coverageMap
        done := collecting.done + 1
        lastRunTimedOut := run.lastRunTimedOut
        childCrashed := run.childCrashed }

def executeTestcases (entries : List CorpusNode) (collecting : Collecting) :
    Except CollectExit Collecting :=
  (CorpusNode.inOrder (CorpusNode.executedEntries [] entries)).foldlM
    settings.executeTestcase collecting

/-- For `afl-cmin`, the last run may leave an empty file. -/
def skips (lastRunTimedOut childCrashed : Bool) : Bool :=
  settings.cminMode &&
    (lastRunTimedOut || (!settings.caa && (childCrashed != settings.cco)))

/-- `write_results_to_file`, with the map in `trace_bits`. -/
def writeResults (collecting : Collecting) (traceBits : List (BitVec 8)) :
    Option CoverageReport :=
  if settings.skips collecting.lastRunTimedOut collecting.childCrashed then none
  else if settings.binaryMode then some (.binary traceBits)
  else
    some (.tuples ((traceBits.zipIdx.filter fun entry => entry.1 ≠ 0#8).map
      fun entry => (entry.2, entry.1)))

/-- `main` from the allocation of `coverage_map` on. -/
def collectCoverage (entries : List CorpusNode) :
    Except CollectExit (Option CoverageReport) :=
  match fsrvMapSize true settings.status settings.mapSize with
  | none => .error .handshakeFailed
  | some mapSize => do
      let collecting ← settings.executeTestcases entries
        { mapSize := mapSize.toNat
          coverageMap := settings.memory
          done := 0
          lastRunTimedOut := false
          childCrashed := false }
      if collecting.done = 0 then .error .noTestcases
      else
        match Region.read collecting.coverageMap 0 mapSize.toNat with
        | none => .error .outOfBounds
        | some traceBits => .ok (settings.writeResults collecting traceBits)

end CollectSettings

namespace CollectSettings

variable (settings : CollectSettings)

/-- The runs on the files of a list, the first of which is run number `done`. -/
def runsFrom : Nat → List CorpusFile → List CoverageRun
  | _, [] => []
  | done, file :: files =>
      settings.target done (file.content.take maxFile) :: runsFrom (done + 1) files

/-- The runs on a directory tree. -/
def runs (entries : List CorpusNode) : List CoverageRun :=
  settings.runsFrom 0
    (CorpusNode.inOrder (CorpusNode.executedEntries [] entries))

def HitBy (runs : List CoverageRun) (i : Nat) : Prop :=
  ∃ run ∈ runs, run.traceBits i ≠ 0#8

@[simp] theorem hitBy_nil (i : Nat) : ¬HitBy [] i := by
  simp [HitBy]

@[simp] theorem hitBy_cons (run : CoverageRun) (runs : List CoverageRun)
    (i : Nat) :
    HitBy (run :: runs) i ↔ run.traceBits i ≠ 0#8 ∨ HitBy runs i := by
  simp [HitBy]

theorem traceOf_apply (mapSize : Nat) (run : CoverageRun) {i : Nat}
    (positive : 0 < i) :
    settings.traceOf mapSize run i = run.traceBits i := by
  have other : i ≠ 0 := by omega
  have kept : (if run.traceBits 0 = 1#8 then
      Function.update run.traceBits 0 0#8 else run.traceBits) i =
      run.traceBits i := by
    split
    · simp [Function.update, other]
    · rfl
  by_cases raw : settings.noClassify = true
  · simpa [traceOf, raw] using kept
  · simpa [traceOf, raw, classifyRaw] using kept

end CollectSettings

open CollectSettings (HitBy)

/-- What `analyze_results` makes of the map in its first rounds. -/
structure Marks (traceBits : Buffer) (before : List (BitVec 8)) (count : Nat)
    (coverageMap : List (BitVec 8)) : Prop where
  length : coverageMap.length = before.length
  bytes : ∀ i, coverageMap[i]? = some 0#8 ↔
    before[i]? = some 0#8 ∧ (i < count → traceBits i = 0#8)

theorem analyzeByte_marks {traceBits : Buffer} {before current : List (BitVec 8)}
    {count : Nat} (inside : count < before.length)
    (marks : Marks traceBits before count current) :
    Yields (fun _ => False) (Marks traceBits before (count + 1))
      (Collecting.analyzeByte traceBits count current) := by
  have exists' : count < current.length := by
    rw [marks.length]
    exact inside
  by_cases hit : traceBits count = 0#8
  · have same : Collecting.analyzeByte traceBits count current = .ok current := by
      simp [Collecting.analyzeByte, hit]
    rw [same]
    refine ⟨marks.length, fun i => ?_⟩
    rw [marks.bytes i]
    apply and_congr_right
    intro zero
    constructor
    · intro below within
      by_cases last : i = count
      · rw [last]
        exact hit
      · exact below (by omega)
    · intro below within
      exact below (by omega)
  · have after : ∃ byte, byte ≠ 0#8 ∧
        Collecting.analyzeByte traceBits count current =
          .ok (current.set count byte) := by
      by_cases zero : current[count] = 0#8
      · refine ⟨1#8, by decide, ?_⟩
        simp [Collecting.analyzeByte, hit, exists', zero]
      · refine ⟨current[count], zero, ?_⟩
        simp [Collecting.analyzeByte, hit, exists', zero]
    obtain ⟨byte, nonzero, stored⟩ := after
    rw [stored]
    refine ⟨by rw [List.length_set, marks.length], fun i => ?_⟩
    rw [List.getElem?_set]
    by_cases last : count = i
    · subst last
      simp [exists', nonzero, hit]
    · rw [if_neg last, marks.bytes i]
      apply and_congr_right
      intro zero
      constructor
      · intro below within
        exact below (by omega)
      · intro below within
        exact below (by omega)

/-- `analyze_results` stays inside the map and marks what the trace hit. -/
theorem analyzeResults_marks {mapSize : Nat} (traceBits : Buffer)
    {before : List (BitVec 8)} (fits : mapSize ≤ before.length) :
    Yields (fun _ => False) (Marks traceBits before mapSize)
      (Collecting.analyzeResults mapSize traceBits before) := by
  apply forRangeM_yields (Collecting.analyzeByte traceBits)
    (Marks traceBits before) before
  · exact ⟨rfl, by simp⟩
  · intro count inside current marks
    exact analyzeByte_marks (by omega) marks

/-- What is known of the variables when the runs of a list are over. -/
structure Gathered (start : Collecting) (runs : List CoverageRun)
    (collecting : Collecting) : Prop where
  size : collecting.mapSize = start.mapSize
  length : collecting.coverageMap.length = start.coverageMap.length
  done : collecting.done = start.done + runs.length
  last : (collecting.lastRunTimedOut, collecting.childCrashed) =
    (runs.getLast?.map fun run =>
      (run.lastRunTimedOut, run.childCrashed)).getD
        (start.lastRunTimedOut, start.childCrashed)
  bytes : ∀ i, 0 < i → i < start.mapSize →
    (collecting.coverageMap[i]? = some 0#8 ↔
      start.coverageMap[i]? = some 0#8 ∧ ¬HitBy runs i)

namespace CollectSettings

variable (settings : CollectSettings)

theorem executeTestcase_gathered (file : CorpusFile) {start : Collecting}
    (fits : start.mapSize ≤ start.coverageMap.length) :
    Yields (fun _ => False)
      (Gathered start [settings.target start.done (file.content.take maxFile)])
      (settings.executeTestcase start file) := by
  obtain ⟨coverageMap, analyzed, marks⟩ :=
    (analyzeResults_marks
      (settings.traceOf start.mapSize
        (settings.target start.done (file.content.take maxFile)))
      fits).returns
  simp only [executeTestcase, analyzed, Except.map]
  refine ⟨rfl, marks.length, rfl, rfl, fun i positive inside => ?_⟩
  · rw [marks.bytes i, settings.traceOf_apply _ _ positive]
    simp [inside]

end CollectSettings

theorem Gathered.append {start middle collecting : Collecting}
    {first second : List CoverageRun} (before : Gathered start first middle)
    (after : Gathered middle second collecting) :
    Gathered start (first ++ second) collecting := by
  refine ⟨after.size.trans before.size, after.length.trans before.length, ?_, ?_, ?_⟩
  · rw [after.done, before.done, List.length_append, Nat.add_assoc]
  · rw [after.last, before.last, List.getLast?_append]
    cases second.getLast? with
    | none => rfl
    | some run => rfl
  · intro i positive inside
    have within : i < middle.mapSize := by
      rw [before.size]
      exact inside
    rw [after.bytes i positive within, before.bytes i positive inside]
    simp only [HitBy, List.mem_append, not_exists, not_and, and_assoc]
    apply and_congr_right
    intro zero
    constructor
    · intro both run member
      exact member.elim (both.1 run) (both.2 run)
    · intro all
      exact ⟨fun run member => all run (.inl member),
        fun run member => all run (.inr member)⟩

/-- The files of a list are executed without an access outside the map. -/
theorem CollectSettings.executeTestcases_gathered (settings : CollectSettings)
    (files : List CorpusFile) :
    ∀ start : Collecting, start.mapSize ≤ start.coverageMap.length →
      Yields (fun _ => False)
        (Gathered start (settings.runsFrom start.done files))
        (files.foldlM settings.executeTestcase start) := by
  induction files with
  | nil =>
      intro start fits
      exact ⟨rfl, rfl, rfl, by simp [runsFrom], by simp [runsFrom]⟩
  | cons file files induction =>
      intro start fits
      apply (settings.executeTestcase_gathered file fits).bind
      intro middle gathered
      have bounded : middle.mapSize ≤ middle.coverageMap.length := by
        rw [gathered.size, gathered.length]
        exact fits
      have number : middle.done = start.done + 1 := gathered.done
      have rest := induction middle bounded
      rw [number] at rest
      exact rest.mono fun collecting later => gathered.append later

theorem fsrvMapSize_le {supportShmemFuzz : Bool}
    {status mapSize settled : BitVec 32} (positive : mapSize ≠ 0#32)
    (announced : fsrvMapSize supportShmemFuzz status mapSize = some settled) :
    settled.toNat ≤ mapSize.toNat := by
  have taken : ∀ word, takeMapSize word mapSize = some settled →
      settled.toNat ≤ mapSize.toNat := by
    intro word
    simp only [takeMapSize, if_neg positive]
    split
    · intro absurd
      cases absurd
    · rename_i fits
      intro same
      cases same
      exact BitVec.not_lt.mp fits
  simp only [fsrvMapSize] at announced
  split_ifs at announced
  · exact taken _ announced
  · exact Nat.le_of_eq (congrArg BitVec.toNat (Option.some.inj announced).symm)
  · exact taken _ announced
  · exact Nat.le_of_eq (congrArg BitVec.toNat (Option.some.inj announced).symm)
  · exact Nat.le_of_eq (congrArg BitVec.toNat (Option.some.inj announced).symm)

namespace CollectSettings

variable (settings : CollectSettings)

/-- The program reads and writes inside the map, and refuses a tree without
files. -/
theorem collectCoverage_eq (entries : List CorpusNode) {mapSize : BitVec 32}
    (announced : fsrvMapSize true settings.status settings.mapSize = some mapSize) :
    ∃ collecting,
      Gathered
        { mapSize := mapSize.toNat
          coverageMap := settings.memory
          done := 0
          lastRunTimedOut := false
          childCrashed := false }
        (settings.runs entries) collecting ∧
      mapSize.toNat ≤ collecting.coverageMap.length ∧
      settings.collectCoverage entries =
        if settings.runs entries = [] then .error .noTestcases
        else .ok (settings.writeResults collecting
          (collecting.coverageMap.take mapSize.toNat)) := by
  have fits := fsrvMapSize_le settings.positive announced
  obtain ⟨collecting, executed, gathered⟩ :=
    (settings.executeTestcases_gathered
      (CorpusNode.inOrder (CorpusNode.executedEntries [] entries))
      { mapSize := mapSize.toNat
        coverageMap := settings.memory
        done := 0
        lastRunTimedOut := false
        childCrashed := false }
      (by simp only [settings.allocated]; omega)).returns
  have bounded : 0 + mapSize.toNat ≤ collecting.coverageMap.length := by
    rw [gathered.length, settings.allocated]
    omega
  refine ⟨collecting, gathered, by omega, ?_⟩
  have ran : settings.executeTestcases entries _ = .ok collecting := executed
  have count : collecting.done = 0 ↔ settings.runs entries = [] := by
    simp [gathered.done, runs]
  simp only [collectCoverage, announced, ran, ok_bind, count,
    Region.read_eq bounded, List.drop_zero]

theorem writeResults_nonzeroAt {collecting : Collecting}
    {traceBits : List (BitVec 8)} {report : CoverageReport}
    (written : settings.writeResults collecting traceBits = some report)
    {i : Nat} (inside : i < traceBits.length) :
    report.NonzeroAt i ↔ traceBits[i]? ≠ some 0#8 := by
  have byteThere : traceBits[i]? = some traceBits[i] := List.getElem?_eq_getElem inside
  unfold writeResults at written
  split_ifs at written
  · obtain rfl := Option.some.inj written
    simp [CoverageReport.NonzeroAt, byteThere]
  · obtain rfl := Option.some.inj written
    have member : ∀ byte,
        (i, byte) ∈ (traceBits.zipIdx.filter fun entry => entry.1 ≠ 0#8).map
          (fun entry => (entry.2, entry.1)) ↔
        traceBits[i]? = some byte ∧ byte ≠ 0#8 := by
      intro byte
      simp [List.mem_zipIdx_iff_getElem?]
    simp only [CoverageReport.NonzeroAt, member, byteThere]
    simp

/-- When the written map is the union of what the files hit. -/
theorem collectCoverage_union_iff {entries : List CorpusNode}
    {report : CoverageReport} {mapSize : BitVec 32}
    (announced : fsrvMapSize true settings.status settings.mapSize = some mapSize)
    (returns : settings.collectCoverage entries = .ok (some report)) :
    (∀ i, 0 < i → i < mapSize.toNat →
        (report.NonzeroAt i ↔ HitBy (settings.runs entries) i)) ↔
      ∀ i, 0 < i → i < mapSize.toNat → ¬HitBy (settings.runs entries) i →
        settings.memory[i]? = some 0#8 := by
  obtain ⟨collecting, gathered, bounded, written⟩ :=
    settings.collectCoverage_eq entries announced
  rw [returns] at written
  split_ifs at written
  have stored := (Except.ok.inj written).symm
  apply forall₃_congr
  intro i positive inside
  have length : i < (collecting.coverageMap.take mapSize.toNat).length := by
    rw [List.length_take]
    omega
  have bytes := gathered.bytes i positive inside
  rw [settings.writeResults_nonzeroAt stored length,
    List.getElem?_take_of_lt inside, Ne, bytes]
  simp only
  tauto

end CollectSettings

/-- Two bytes of map, and a target that hits nothing. -/
def uncovered (memory : List (BitVec 8)) (allocated : memory.length = 66) :
    CollectSettings where
  mapSize := 2#32
  positive := by decide
  status := 0#32
  memory
  allocated
  noClassify := false
  binaryMode := true
  cminMode := false
  cco := false
  caa := false
  target := fun _ _ => ⟨fun _ => 0#8, false, false⟩

theorem plainName : ∀ char ∈ ['a'], char ∉ ['/', '\n', '"', '$', Char.ofNat 96, '\\'] := by
  simp

def oneFile : List CorpusNode := [.file ⟨['a'], plainName⟩ [65#8]]

theorem inOrder_oneFile :
    CorpusNode.inOrder (CorpusNode.executedEntries [] oneFile) =
      [⟨[], ⟨['a'], by simp⟩, [65#8]⟩] := by
  simp [oneFile, CorpusNode.inOrder, CorpusNode.executedEntries,
    CorpusNode.executed, CorpusNode.name]

theorem uncovered_runs (memory : List (BitVec 8))
    (allocated : memory.length = 66) :
    (uncovered memory allocated).runs oneFile = [⟨fun _ => 0#8, false, false⟩] := by
  simp only [CollectSettings.runs, inOrder_oneFile]
  rfl

theorem uncovered_returns (memory : List (BitVec 8))
    (allocated : memory.length = 66) :
    (uncovered memory allocated).collectCoverage oneFile =
      .ok (some (.binary (memory.take 2))) := by
  have read : Region.read memory 0 2 = some (memory.take 2) := by
    rw [Region.read_eq (by omega), List.drop_zero]
  have executed : (uncovered memory allocated).executeTestcases oneFile
      ⟨2, memory, 0, false, false⟩ = .ok ⟨2, memory, 1, false, false⟩ := by
    simp only [CollectSettings.executeTestcases, inOrder_oneFile]
    rfl
  have announced : fsrvMapSize true 0#32 2#32 = some 2#32 := by decide
  have started : fsrvMapSize true (uncovered memory allocated).status
      (uncovered memory allocated).mapSize = some 2#32 := announced
  have written : (uncovered memory allocated).writeResults
      ⟨2, memory, 1, false, false⟩ (memory.take 2) =
        some (.binary (memory.take 2)) := rfl
  have initial : (uncovered memory allocated).memory = memory := rfl
  simp [CollectSettings.collectCoverage, started, initial, executed, ok_bind,
    read, written]

theorem collectCoverage_union_iff_zeroed :
    (∀ i, 0 < i → i < 2 →
        ((CoverageReport.binary [0#8, 0#8]).NonzeroAt i ↔
          HitBy ((uncovered (List.replicate 66 0#8) rfl).runs oneFile) i)) ↔
      ∀ i, 0 < i → i < 2 →
        ¬HitBy ((uncovered (List.replicate 66 0#8) rfl).runs oneFile) i →
        (List.replicate 66 0#8)[i]? = some 0#8 :=
  @CollectSettings.collectCoverage_union_iff
    (uncovered (List.replicate 66 0#8) rfl) oneFile _ 2#32 (by decide)
    (uncovered_returns (List.replicate 66 0#8) rfl)

/-- No file hits anything, and the map is what `malloc` has returned. -/
theorem collectCoverage_uncleared :
    (uncovered (List.replicate 66 0xa5#8) rfl).collectCoverage oneFile =
        .ok (some (.binary [0xa5#8, 0xa5#8])) ∧
      ¬(∀ i, 0 < i → i < 2 →
        ((CoverageReport.binary [0xa5#8, 0xa5#8]).NonzeroAt i ↔
          HitBy ((uncovered (List.replicate 66 0xa5#8) rfl).runs oneFile)
            i)) := by
  refine ⟨uncovered_returns (List.replicate 66 0xa5#8) rfl, fun union => ?_⟩
  have hit := (union 1 (by decide) (by decide)).mp
    ⟨0xa5#8, rfl, by decide⟩
  simp [uncovered_runs] at hit

end AFLPlusPlus
