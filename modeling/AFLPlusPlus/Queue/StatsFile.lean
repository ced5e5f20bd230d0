import AFLPlusPlus.Queue.PivotInputs
import Mathlib.Order.Interval.Set.Nat

/-!
# Loading the statistics of an earlier run

`load_stats_file` reads counters of the earlier run from `fuzzer_stats`.  One
of them, `queued_paths`, is also the length of the array `queue_buf` that
`read_testcases` has just filled, and the id of the next entry.
-/

namespace AFLPlusPlus

def maxLine : Nat := 8192

/-- The counters that are loaded, with the queue. -/
structure ResumedRun where
  queue : CorpusQueue
  prevRunTime : Nat
  queueCycle : Nat
  totalExecs : Nat
  queuedDiscovered : Nat
  queuedImported : Nat
  maxDepth : Nat
  uniqueCrashes : Nat
  uniqueHangs : Nat

/-- What `fgets` with a buffer of `MAX_LINE` bytes returns, call by call; the
second argument is the part of the current line that was read already. -/
def statsLines : List Char → List Char → List (List Char)
  | [], [] => []
  | [], line => [line]
  | char :: rest, line =>
      if char = '\n' ∨ line.length + 1 = maxLine - 1 then
        (line ++ [char]) :: statsLines rest []
      else statsLines rest (line ++ [char])

/-- A line up to its first colon and behind it, as far as it is a C string. -/
def splitKey (line : List Char) : Option (CString × CString) :=
  let text := line.takeWhile (· ≠ '\x00')
  match text.dropWhile (· ≠ ':') with
  | [] => none
  | _ :: value => some (text.takeWhile (· ≠ ':'), value)

/-- `strtoull` with base 10, and `strtoul` where `long` has 64 bits. -/
def strtoull (text : CString) : Nat :=
  let body := text.dropWhile isSpace
  match body with
  | '-' :: rest =>
      let value := Decimal.value (rest.takeWhile Char.isDigit)
      if 2 ^ 64 ≤ value then 2 ^ 64 - 1 else (2 ^ 64 - value) % 2 ^ 64
  | '+' :: rest =>
      min (Decimal.value (rest.takeWhile Char.isDigit)) (2 ^ 64 - 1)
  | _ => min (Decimal.value (body.takeWhile Char.isDigit)) (2 ^ 64 - 1)

namespace ResumedRun

/-- The assignment to `queued_paths`. -/
def setQueuedPaths (run : ResumedRun) (value : Nat) : ResumedRun :=
  { run with queue := { run.queue with queuedPaths := value % 2 ^ 32 } }

/-- The `switch` over the number of the line. -/
def readLine (lineno : Nat) (key value : CString) (run : ResumedRun) :
    ResumedRun :=
  let number := strtoull value
  match lineno with
  | 3 =>
      if key = "run_time          ".toList then
        { run with prevRunTime := 1000 * number % 2 ^ 64 }
      else run
  | 5 =>
      if key = "cycles_done       ".toList then
        { run with
          queueCycle := if number = 0 then 0 else (number + 1) % 2 ^ 64 }
      else run
  | 7 =>
      if key = "execs_done        ".toList then
        { run with totalExecs := number }
      else run
  | 10 =>
      if key = "paths_total       ".toList then run.setQueuedPaths number
      else run
  | 12 =>
      if key = "paths_found       ".toList then
        { run with queuedDiscovered := number % 2 ^ 32 }
      else run
  | 13 =>
      if key = "paths_imported    ".toList then
        { run with queuedImported := number % 2 ^ 32 }
      else run
  | 14 =>
      if key = "max_depth         ".toList then
        { run with maxDepth := number % 2 ^ 32 }
      else run
  | 21 =>
      if key = "unique_crashes    ".toList then
        { run with uniqueCrashes := number }
      else run
  | 22 =>
      if key = "unique_hangs      ".toList then
        { run with uniqueHangs := number }
      else run
  | _ => run

/-- The loop over the lines, from the one with this number on. -/
def readLines : Nat → List (List Char) → ResumedRun → ResumedRun
  | _, [], run => run
  | lineno, line :: lines, run =>
      match splitKey line with
      | none => readLines (lineno + 1) lines run
      | some (key, value) =>
          readLines (lineno + 1) lines (run.readLine lineno key value)

/-- `load_stats_file`; there is no content if the run is not resumed in place
or the file cannot be opened. -/
def loadStatsFile (fuzzerStats : Option (List Char)) (run : ResumedRun) :
    ResumedRun :=
  match fuzzerStats with
  | none => run
  | some text => readLines 1 (statsLines text []) run

end ResumedRun

/-- What a line gives as `paths_total`. -/
def linePathsTotal (line : List Char) : Option Nat :=
  match splitKey line with
  | none => none
  | some (key, value) =>
      if key = "paths_total       ".toList then some (strtoull value % 2 ^ 32)
      else none

/-- The number of entries that a file gives: it is looked for in line 10. -/
def pathsTotal (fuzzerStats : Option (List Char)) : Option Nat :=
  match fuzzerStats with
  | none => none
  | some text => (statsLines text [])[9]?.bind linePathsTotal

namespace ResumedRun

theorem readLine_queue {lineno : Nat} (other : lineno ≠ 10)
    (key value : CString) (run : ResumedRun) :
    (run.readLine lineno key value).queue = run.queue := by
  unfold readLine
  dsimp only
  split
  case h_4 => exact absurd rfl other
  all_goals first | rfl | (split <;> rfl)

theorem readLines_queue (lineno : Nat) (lines : List (List Char))
    (run : ResumedRun) :
    (readLines lineno lines run).queue =
      if lineno ≤ 10 then
        { run.queue with
          queuedPaths :=
            (lines[10 - lineno]?.bind linePathsTotal).getD
              run.queue.queuedPaths }
      else run.queue := by
  induction lines generalizing lineno run with
  | nil => simp [readLines]
  | cons line lines induction =>
      rcases Nat.lt_trichotomy lineno 10 with before | rfl | after
      · have next : 10 - lineno = 10 - (lineno + 1) + 1 := by omega
        rw [if_pos (by omega), next, List.getElem?_cons_succ]
        unfold readLines
        split
        · rw [induction, if_pos (by omega)]
        · rw [induction, if_pos (by omega), readLine_queue (by omega)]
      · rw [if_pos (Nat.le_refl 10), Nat.sub_self, List.getElem?_cons_zero,
          Option.bind_some]
        unfold readLines linePathsTotal
        split
        · rw [induction, if_neg (by decide)]
          rfl
        · rw [induction, if_neg (by decide)]
          simp only [readLine]
          split <;> rfl
      · rw [if_neg (by omega)]
        unfold readLines
        split
        · rw [induction, if_neg (by omega)]
        · rw [induction, if_neg (by omega), readLine_queue (by omega)]

theorem loadStatsFile_queue (fuzzerStats : Option (List Char))
    (run : ResumedRun) :
    (run.loadStatsFile fuzzerStats).queue =
      { run.queue with
        queuedPaths := (pathsTotal fuzzerStats).getD run.queue.queuedPaths } := by
  cases fuzzerStats with
  | none => rfl
  | some text =>
      rw [loadStatsFile, readLines_queue, if_pos (by decide)]
      rfl

end ResumedRun

/-- The arguments of a call of `add_to_queue`. -/
structure Addition where
  curDepth : Nat
  fname : CString
  len : Nat
  passedDet : Bool

/-- Entries are added one after the other. -/
def CorpusQueue.addAll (queue : CorpusQueue) (additions : List Addition) :
    CorpusQueue :=
  additions.foldl (fun queue addition =>
    queue.addToQueue addition.curDepth addition.fname addition.len
      addition.passedDet) queue

/-- The number of entries stored in `queue_buf`. -/
noncomputable def CorpusQueue.stored (queue : CorpusQueue) : Nat :=
  {index | (queue.queueBuf index).isSome}.ncard

/-- The count is that of the entries, and each entry has its index as id. -/
structure CorpusQueue.Consistent (queue : CorpusQueue) : Prop where
  queuedPaths : queue.queuedPaths = queue.stored
  id : ∀ index q, queue.queueBuf index = some q → q.id = index

namespace CorpusQueue

variable {queue : CorpusQueue} {count : Nat}

/-- What this number of additions to an empty queue leaves. -/
structure Filled (count : Nat) (queue : CorpusQueue) : Prop where
  queuedPaths : queue.queuedPaths = count % 2 ^ 32
  stored : ∀ index, (queue.queueBuf index).isSome = true ↔ index < min count (2 ^ 32)
  id : ∀ index q, queue.queueBuf index = some q → q.id = index

theorem filled_empty : Filled 0 empty :=
  ⟨rfl, fun index => by simp [empty], fun index q none => by cases none⟩

section

variable (filled : Filled count queue)
include filled

theorem Filled.addToQueue (curDepth : Nat) (fname : CString) (len : Nat)
    (passedDet : Bool) :
    Filled (count + 1) (queue.addToQueue curDepth fname len passedDet) := by
  obtain ⟨queuedPaths, stored, id⟩ := filled
  refine ⟨?_, ?_, ?_⟩
  · rw [CorpusQueue.addToQueue, queuedPaths]
    exact Nat.mod_add_mod _ _ _
  · intro index
    by_cases here : index = queue.queuedPaths
    · subst here
      simp only [CorpusQueue.addToQueue, Function.update_self,
        Option.isSome_some, true_iff]
      omega
    · simp only [CorpusQueue.addToQueue, Function.update_of_ne here]
      rw [stored]
      omega
  · intro index q found
    by_cases here : index = queue.queuedPaths
    · subst here
      simp only [CorpusQueue.addToQueue, Function.update_self] at found
      rw [← Option.some.inj found]
    · simp only [CorpusQueue.addToQueue, Function.update_of_ne here] at found
      exact id index q found

theorem Filled.addAll (additions : List Addition) :
    Filled (count + additions.length) (queue.addAll additions) := by
  induction additions generalizing count queue with
  | nil => exact filled
  | cons addition additions induction =>
      have added := filled.addToQueue addition.curDepth addition.fname
        addition.len addition.passedDet
      have rest := induction added
      rw [Nat.add_assoc, Nat.add_comm 1] at rest
      exact rest

theorem Filled.stored_eq : queue.stored = min count (2 ^ 32) := by
  have same : {index | (queue.queueBuf index).isSome} =
      Set.Iio (min count (2 ^ 32)) := by
    ext index
    exact filled.stored index
  rw [CorpusQueue.stored, same, Set.ncard_Iio_nat]

theorem Filled.consistent_iff : queue.Consistent ↔ count < 2 ^ 32 := by
  constructor
  · intro consistent
    have same := consistent.queuedPaths
    rw [filled.stored_eq, filled.queuedPaths] at same
    omega
  · intro few
    refine ⟨?_, filled.id⟩
    rw [filled.stored_eq, filled.queuedPaths]
    omega

end

end CorpusQueue

theorem CorpusQueue.Holds.filled {dir : CString} {files : List InputFile}
    {queue : CorpusQueue} (holds : CorpusQueue.Holds dir files queue)
    (few : files.length < 2 ^ 32) :
    CorpusQueue.Filled files.length queue := by
  obtain ⟨length, entries, beyond⟩ := holds
  have cases : ∀ index q, queue.queueBuf index = some q →
      index < files.length ∧ q.id = index := by
    intro index q found
    by_cases inside : index < files.length
    · obtain ⟨len, passedDet, entry⟩ := entries index inside
      rw [found] at entry
      exact ⟨inside, by rw [Option.some.inj entry]⟩
    · rw [beyond index (by omega)] at found
      cases found
  refine ⟨by rw [length, Nat.mod_eq_of_lt few], ?_, fun index q found =>
    (cases index q found).2⟩
  intro index
  rw [Nat.min_eq_left (Nat.le_of_lt few)]
  constructor
  · intro present
    obtain ⟨q, found⟩ := Option.isSome_iff_exists.mp present
    exact (cases index q found).1
  · intro inside
    obtain ⟨len, passedDet, entry⟩ := entries index inside
    rw [entry]
    rfl

namespace StartUp

variable {start : StartUp} {inDir dir : CString}

theorem readEntry_filled
    {descend : CString → CorpusQueue → Option CorpusQueue}
    (descends : ∀ path count queue after,
      CorpusQueue.Filled count queue → descend path queue = some after →
        ∃ total, CorpusQueue.Filled total after)
    {subdirs : Bool} {count : Nat} {queue after : CorpusQueue}
    {file : InputFile} (filled : CorpusQueue.Filled count queue)
    (read : start.readEntry descend inDir dir subdirs queue file = some after) :
    ∃ total, CorpusQueue.Filled total after := by
  unfold readEntry at read
  split at read
  · cases read
  · split at read
    · exact descends _ count queue after filled read
    · split at read
      · obtain rfl := Option.some.inj read
        exact ⟨count + 1, filled.addToQueue _ _ _ _⟩
      · obtain rfl := Option.some.inj read
        exact ⟨count, filled⟩

theorem readTestcases_filled (fuel : Nat) {subdirs : Bool} {count : Nat}
    {queue after : CorpusQueue} (filled : CorpusQueue.Filled count queue)
    (read : start.readTestcases inDir fuel dir subdirs queue = some after) :
    ∃ total, CorpusQueue.Filled total after := by
  induction fuel generalizing dir subdirs count queue after with
  | zero => cases read
  | succ fuel descends =>
      unfold readTestcases at read
      generalize (start.listing dir).reverse = files at read
      induction files generalizing count queue with
      | nil =>
          obtain rfl := Option.some.inj read
          exact ⟨count, filled⟩
      | cons file files induction =>
          rw [List.foldlM_cons] at read
          obtain ⟨next, entry, rest⟩ := Option.bind_eq_some_iff.mp read
          obtain ⟨total, nextFilled⟩ := readEntry_filled
            (fun path count queue after holds => descends holds) filled entry
          exact induction nextFilled rest

theorem readInput_filled {fuel : Nat} {queue : CorpusQueue}
    (read : start.readInput fuel inDir = some queue) :
    ∃ count, CorpusQueue.Filled count queue := by
  unfold readInput at read
  dsimp only at read
  split at read
  · cases read
  · rename_i after entries
    split at read
    · cases read
    · obtain rfl := Option.some.inj read
      exact readTestcases_filled fuel CorpusQueue.filled_empty entries

end StartUp

theorem pathsTotal_lt {fuzzerStats : Option (List Char)} {total : Nat}
    (given : pathsTotal fuzzerStats = some total) : total < 2 ^ 32 := by
  unfold pathsTotal at given
  split at given
  · cases given
  · obtain ⟨line, _, found⟩ := Option.bind_eq_some_iff.mp given
    unfold linePathsTotal at found
    split at found
    · cases found
    · split at found
      · rw [← Option.some.inj found]
        exact Nat.mod_lt _ (by decide)
      · cases found

section

variable {count : Nat} {queue : CorpusQueue} (filled : CorpusQueue.Filled count queue)
    (fuzzerStats : Option (List Char))
include filled fuzzerStats

theorem getD_pathsTotal_lt :
    (pathsTotal fuzzerStats).getD queue.queuedPaths < 2 ^ 32 := by
  cases given : pathsTotal fuzzerStats with
  | none =>
      rw [Option.getD_none, filled.queuedPaths]
      exact Nat.mod_lt _ (by decide)
  | some total => exact pathsTotal_lt given

/-- A count that is the right one leaves the queue as it was. -/
theorem loaded_filled (few : count < 2 ^ 32)
    (same : (pathsTotal fuzzerStats).getD queue.queuedPaths = min count (2 ^ 32)) :
    CorpusQueue.Filled count
      { queue with
        queuedPaths := (pathsTotal fuzzerStats).getD queue.queuedPaths } where
  queuedPaths := by
    rw [same, Nat.min_eq_left (Nat.le_of_lt few), Nat.mod_eq_of_lt few]
  stored := filled.stored
  id := filled.id

end

/-- After a resumed start, and after whatever entries are added to it then,
the count is that of the entries exactly when the statistics of the earlier run
do not give another number than that of the files read, and the count does not
wrap. -/
theorem resumed_consistent_iff {start : StartUp} {fuel : Nat}
    {inDir : CString} {run : ResumedRun}
    (read : start.readInput fuel inDir = some run.queue)
    (fuzzerStats : Option (List Char)) (additions : List Addition) :
    (∀ added later, additions = added ++ later →
        ((run.loadStatsFile fuzzerStats).queue.addAll added).Consistent) ↔
      (∀ total, pathsTotal fuzzerStats = some total → total = run.queue.stored) ∧
        run.queue.stored + additions.length < 2 ^ 32 := by
  obtain ⟨count, filled⟩ := StartUp.readInput_filled read
  rw [ResumedRun.loadStatsFile_queue, filled.stored_eq]
  constructor
  · intro consistent
    have start := (consistent [] additions rfl).queuedPaths
    have stored : ({ run.queue with
        queuedPaths := (pathsTotal fuzzerStats).getD run.queue.queuedPaths } :
        CorpusQueue).stored = min count (2 ^ 32) := filled.stored_eq
    change (pathsTotal fuzzerStats).getD run.queue.queuedPaths = _ at start
    rw [CorpusQueue.addAll, List.foldl_nil, stored] at start
    have bounded := getD_pathsTotal_lt filled fuzzerStats
    refine ⟨fun total given => ?_, ?_⟩
    · rw [given, Option.getD_some] at start
      exact start
    · by_contra many
      have kept := loaded_filled filled fuzzerStats (by omega) start
      have full := kept.addAll (additions.take (2 ^ 32 - count))
      rw [List.length_take] at full
      have wrapped := full.consistent_iff.mp (consistent
        (additions.take (2 ^ 32 - count)) (additions.drop (2 ^ 32 - count))
        (List.take_append_drop _ _).symm)
      omega
  · rintro ⟨given, few⟩ added later split
    have same : (pathsTotal fuzzerStats).getD run.queue.queuedPaths =
        min count (2 ^ 32) := by
      cases total : pathsTotal fuzzerStats with
      | none =>
          rw [Option.getD_none, filled.queuedPaths]
          omega
      | some total' => exact given total' total
    have kept := loaded_filled filled fuzzerStats (by omega) same
    refine (kept.addAll added).consistent_iff.mpr ?_
    have length := congrArg List.length split
    rw [List.length_append] at length
    omega

/-- The first lines of a `fuzzer_stats` of a run with one entry. -/
def statsOfOne : List Char :=
  ("start_time        : 0\nlast_update       : 60\n" ++
    "run_time          : 60\nfuzzer_pid        : 1\n" ++
    "cycles_done       : 0\ncycles_wo_finds   : 0\n" ++
    "execs_done        : 9\nexecs_per_sec     : 0.15\n" ++
    "execs_ps_last_min : 0.15\npaths_total       : 1\n").toList

/-- A run that has just read its corpus. -/
def freshRun (queue : CorpusQueue) : ResumedRun where
  queue := queue
  prevRunTime := 0
  queueCycle := 0
  totalExecs := 0
  queuedDiscovered := 0
  queuedImported := 0
  maxDepth := 0
  uniqueCrashes := 0
  uniqueHangs := 0

theorem pathsTotal_statsOfOne : pathsTotal (some statsOfOne) = some 1 := by
  decide +kernel

def oneQueueFile : List InputFile := [initialFile]

def twoQueueFiles : List InputFile := [initialFile, findFile]

/-- Plain files are all read. -/
theorem readInput_plain (files : List InputFile) (nonempty : files.length ≠ 0)
    (few : files.length < 2 ^ 32)
    (plain : ∀ file ∈ files, file.accessible = true ∧
      file.directory = false ∧ StartUp.loads [] file = true) :
    ∃ queue, (startWith files).readInput 1 [] = some queue ∧
      CorpusQueue.Filled files.length queue := by
  have loaded : files.filter (StartUp.loads []) = files :=
    List.filter_eq_self.mpr fun file member => (plain file member).2.2
  have flat : (startWith files).Flat [] := by
    refine ⟨fun file member => (plain file member).1, ?_, ?_⟩
    · intro file member isDirectory
      rw [(plain file member).2.1] at isDirectory
      cases isDirectory
    · change (files.filter (StartUp.loads [])).length < 2 ^ 32
      rw [loaded]
      exact few
  obtain ⟨queue, read, holds⟩ := flat.readTestcases [] 0 true
  have length : (((startWith files).listing []).filter
      (StartUp.loads [])).reverse.length = files.length := by
    rw [List.length_reverse, (((startWith files).listing_perm []).filter _).length_eq]
    exact congrArg List.length loaded
  have filled := holds.filled (by rw [length]; exact few)
  rw [length] at filled
  refine ⟨queue, ?_, filled⟩
  have positive : queue.queuedPaths ≠ 0 := by
    rw [filled.queuedPaths, Nat.mod_eq_of_lt few]
    exact nonempty
  have input : (startWith files).inputDir [] = [] := rfl
  have subdirs : (!(startWith files).fileExists ([] ++ "/queue".toList)) =
      true := rfl
  rw [StartUp.readInput, input, subdirs, read]
  simp only [positive, if_false]

theorem resumed_consistent_statsOfOne :
    ∃ queue, (startWith oneQueueFile).readInput 1 [] = some queue ∧
      ∀ added later, [⟨0, "new".toList, 3, false⟩] = added ++ later →
        (((freshRun queue).loadStatsFile (some statsOfOne)).queue.addAll
          added).Consistent := by
  obtain ⟨queue, read, filled⟩ := readInput_plain oneQueueFile
    (by decide) (by decide) (by decide)
  have stored : (freshRun queue).queue.stored = 1 := filled.stored_eq
  refine ⟨queue, read, (@resumed_consistent_iff _ _ _ (freshRun queue) read
    (some statsOfOne) _).mpr ⟨?_, ?_⟩⟩
  · intro total given
    rw [pathsTotal_statsOfOne] at given
    rw [stored, Option.some.inj given]
  · rw [stored]
    decide

/-- The statistics were written before the find. -/
theorem resumed_not_consistent_find :
    ∃ queue, (startWith twoQueueFiles).readInput 1 [] = some queue ∧
      ¬((freshRun queue).loadStatsFile (some statsOfOne)).queue.Consistent := by
  obtain ⟨queue, read, filled⟩ := readInput_plain twoQueueFiles
    (by decide) (by decide) (by decide)
  refine ⟨queue, read, fun consistent => ?_⟩
  have loaded : ((freshRun queue).loadStatsFile (some statsOfOne)).queue =
      { queue with queuedPaths := 1 } := by
    rw [ResumedRun.loadStatsFile_queue, pathsTotal_statsOfOne]
    rfl
  rw [loaded] at consistent
  have same : 1 = queue.stored := consistent.queuedPaths
  rw [filled.stored_eq] at same
  exact absurd same (by decide)

end AFLPlusPlus
