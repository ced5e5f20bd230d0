import AFLPlusPlus.Sync.QueueListing
import Mathlib.Algebra.Order.Ring.Nat

/-!
# Reading the initial corpus

`read_testcases` lists the input directory and appends its files to the queue,
the last name first.  The queue here is what `add_to_queue` makes of it: the
array `queue_buf` and its length `queued_paths`, a `u32`.
-/

namespace AFLPlusPlus

/-- An entry of the input directory.  No name of a directory entry has a
slash. -/
structure InputFile extends DirEntry where
  /-- `S_ISDIR(st_mode)` -/
  directory : Bool
  component : '/' ∉ dName

/-- `struct queue_entry`, as far as start-up looks at it. -/
structure CorpusEntry where
  fname : CString
  id : Nat
  len : Nat
  depth : Nat
  passedDet : Bool
  disabled : Bool
  deriving DecidableEq

/-- `queue_buf` and `queued_paths`. -/
structure CorpusQueue where
  queuedPaths : Nat
  queueBuf : Nat → Option CorpusEntry

def CorpusQueue.empty : CorpusQueue where
  queuedPaths := 0
  queueBuf := fun _ => none

/-- `add_to_queue`, with `cur_depth` as it is then: `queued_paths` is counted
up before it is used as an index, so index and id are its old value. -/
def CorpusQueue.addToQueue (queue : CorpusQueue) (curDepth : Nat)
    (fname : CString) (len : Nat) (passedDet : Bool) : CorpusQueue where
  queuedPaths := (queue.queuedPaths + 1) % 2 ^ 32
  queueBuf := Function.update queue.queueBuf queue.queuedPaths
    (some
      { fname
        id := queue.queuedPaths
        len
        depth := curDepth + 1
        passedDet
        disabled := false })

/-- The files that start-up sees and the options it looks at. -/
structure StartUp where
  /-- the entries of a directory -/
  entries : CString → List InputFile
  /-- `access` with `F_OK` -/
  fileExists : CString → Bool
  oldSeedSelection : Bool
  shuffleQueue : Bool
  /-- `shuffle_ptrs` -/
  shufflePtrs : List InputFile → List InputFile
  shuffled : ∀ nl, (shufflePtrs nl).Perm nl

namespace StartUp

variable (start : StartUp)

/-- The array `nl`: `scandir` with `alphasort`, shuffled if that is asked
for. -/
def listing (dir : CString) : List InputFile :=
  let nl := (start.entries dir).mergeSort fun first second =>
    notAfter first.dName second.dName
  if start.oldSeedSelection ∧ start.shuffleQueue ∧ 1 < nl.length then
    start.shufflePtrs nl
  else nl

/-- Regular files with content that are no README. -/
def loads (dir : CString) (file : InputFile) : Bool :=
  file.regular && decide (file.size ≠ 0) && !file.isReadme dir

/-- The queue entry for a file. -/
def enqueue (inDir dir : CString) (queue : CorpusQueue) (file : InputFile) :
    CorpusQueue :=
  queue.addToQueue 0 (file.path dir) (min file.size maxFile)
    (start.fileExists (inDir ++ "/.state/deterministic_done/".toList ++ file.dName))

/-- One entry of the listing; `none` is `PFATAL`. -/
def readEntry (descend : CString → CorpusQueue → Option CorpusQueue)
    (inDir dir : CString) (subdirs : Bool) (queue : CorpusQueue)
    (file : InputFile) : Option CorpusQueue :=
  if file.accessible = false then none
  else if subdirs = true ∧ file.directory = true ∧ file.dName.head? ≠ some '.' then
    descend (file.path dir) queue
  else if loads dir file then some (start.enqueue inDir dir queue file)
  else some queue

/-- `read_testcases` for a directory.  The fuel bounds the nesting of
directories. -/
def readTestcases (inDir : CString) :
    Nat → CString → Bool → CorpusQueue → Option CorpusQueue
  | 0, _, _, _ => none
  | fuel + 1, dir, subdirs, queue =>
      (start.listing dir).reverse.foldlM
        (start.readEntry (fun path queue => readTestcases inDir fuel path true queue)
          inDir dir subdirs) queue

/-- The directory that is read: of a whole output directory its `queue`. -/
def inputDir (inDir : CString) : CString :=
  if start.fileExists (inDir ++ "/queue".toList) then inDir ++ "/queue".toList
  else inDir

/-- `read_testcases(afl, NULL)` -/
def readInput (fuel : Nat) (inDir : CString) : Option CorpusQueue :=
  let dir := start.inputDir inDir
  let subdirs := !start.fileExists (inDir ++ "/queue".toList)
  match start.readTestcases dir fuel dir subdirs .empty with
  | none => none
  | some queue => if queue.queuedPaths = 0 then none else some queue

end StartUp

/-- The queue with these files in this order. -/
def CorpusQueue.Holds (dir : CString) (files : List InputFile)
    (queue : CorpusQueue) : Prop :=
  queue.queuedPaths = files.length ∧
    (∀ index (inside : index < files.length),
      ∃ len passedDet, queue.queueBuf index = some
        { fname := (files.get ⟨index, inside⟩).path dir
          id := index
          len
          depth := 1
          passedDet
          disabled := false }) ∧
    ∀ index, files.length ≤ index → queue.queueBuf index = none

theorem CorpusQueue.holds_empty (dir : CString) : CorpusQueue.Holds dir [] .empty :=
  ⟨rfl, fun _ inside => absurd inside (Nat.not_lt_zero _), fun _ _ => rfl⟩

namespace StartUp

variable {start : StartUp} {inDir dir : CString}

theorem enqueue_holds {queue : CorpusQueue} {files : List InputFile}
    (holds : CorpusQueue.Holds dir files queue) (file : InputFile)
    (few : files.length + 1 < 2 ^ 32) :
    CorpusQueue.Holds dir (files ++ [file])
      (start.enqueue inDir dir queue file) := by
  obtain ⟨length, entries, beyond⟩ := holds
  refine ⟨?_, ?_, ?_⟩
  · rw [enqueue, CorpusQueue.addToQueue, length, List.length_append,
      List.length_singleton, Nat.mod_eq_of_lt few]
  · intro index inside
    rw [List.length_append, List.length_singleton] at inside
    by_cases last : index = files.length
    · subst last
      refine ⟨min file.size maxFile, start.fileExists (inDir ++
        "/.state/deterministic_done/".toList ++ file.dName), ?_⟩
      rw [enqueue, CorpusQueue.addToQueue, length]
      simp only [Function.update_self, List.get_eq_getElem, List.getElem_concat_length]
    · have earlier : index < files.length := by omega
      obtain ⟨len, passedDet, entry⟩ := entries index earlier
      refine ⟨len, passedDet, ?_⟩
      rw [enqueue, CorpusQueue.addToQueue, length]
      simp only [Function.update_of_ne last, List.get_eq_getElem,
        List.getElem_append_left earlier]
      exact entry
  · intro index above
    rw [List.length_append, List.length_singleton] at above
    rw [enqueue, CorpusQueue.addToQueue, length]
    simp only
    rw [Function.update_of_ne (by omega)]
    exact beyond index (by omega)

theorem listing_perm (start : StartUp) (dir : CString) :
    (start.listing dir).Perm (start.entries dir) := by
  unfold listing
  dsimp only
  split
  · exact (start.shuffled _).trans (List.mergeSort_perm _ _)
  · exact List.mergeSort_perm _ _

/-- A directory in which `read_testcases` finds nothing to complain about and
nothing to descend into. -/
structure Flat (start : StartUp) (dir : CString) : Prop where
  accessible : ∀ file ∈ start.entries dir, file.accessible = true
  hidden : ∀ file ∈ start.entries dir, file.directory = true →
    file.dName.head? = some '.'
  few : ((start.entries dir).filter (loads dir)).length < 2 ^ 32

variable (start) in
private theorem foldlM_holds
    (descend : CString → CorpusQueue → Option CorpusQueue)
    (inDir : CString) (subdirs : Bool) (files : List InputFile)
    (accessible : ∀ file ∈ files, file.accessible = true)
    (hidden : ∀ file ∈ files, file.directory = true → file.dName.head? = some '.')
    {done : List InputFile} {queue : CorpusQueue}
    (holds : CorpusQueue.Holds dir done queue)
    (few : done.length + (files.filter (loads dir)).length < 2 ^ 32) :
    ∃ after, files.foldlM (start.readEntry descend inDir dir subdirs) queue =
        some after ∧
      CorpusQueue.Holds dir (done ++ files.filter (loads dir)) after := by
  induction files generalizing done queue with
  | nil => exact ⟨queue, rfl, by simpa using holds⟩
  | cons file files induction =>
      have here : ¬(subdirs = true ∧ file.directory = true ∧
          file.dName.head? ≠ some '.') := fun descends =>
        descends.2.2 (hidden file List.mem_cons_self descends.2.1)
      have opened : ¬file.accessible = false := by
        rw [accessible file List.mem_cons_self]
        exact Bool.noConfusion
      have rest := fun {done queue} holds few => @induction
        (fun other member => accessible other (List.mem_cons_of_mem _ member))
        (fun other member => hidden other (List.mem_cons_of_mem _ member))
        done queue holds few
      rw [List.foldlM_cons, readEntry, if_neg opened, if_neg here]
      by_cases loaded : loads dir file = true
      · rw [List.filter_cons_of_pos loaded, List.length_cons] at few
        rw [if_pos loaded, Option.bind_eq_bind, Option.bind_some,
          List.filter_cons_of_pos loaded, List.append_cons]
        apply rest (enqueue_holds holds file (by omega))
        rw [List.length_append, List.length_singleton]
        omega
      · rw [List.filter_cons_of_neg loaded] at few
        rw [if_neg loaded, Option.bind_eq_bind, Option.bind_some,
          List.filter_cons_of_neg loaded]
        exact rest holds few

theorem Flat.readTestcases (flat : start.Flat dir) (inDir : CString)
    (fuel : Nat) (subdirs : Bool) :
    ∃ queue, start.readTestcases inDir (fuel + 1) dir subdirs .empty = some queue ∧
      CorpusQueue.Holds dir ((start.listing dir).filter (loads dir)).reverse
        queue := by
  have inside : ∀ file ∈ (start.listing dir).reverse,
      file ∈ start.entries dir := fun file member =>
    (start.listing_perm dir).mem_iff.mp (List.mem_reverse.mp member)
  have length := ((start.listing_perm dir).filter (loads dir)).length_eq
  obtain ⟨queue, read, holds⟩ := foldlM_holds start
    (fun path queue => start.readTestcases inDir fuel path true queue) inDir
    subdirs (start.listing dir).reverse
    (fun file member => flat.accessible file (inside file member))
    (fun file member => flat.hidden file (inside file member))
    (CorpusQueue.holds_empty dir) (by
      have few := flat.few
      rw [List.length_nil, List.filter_reverse, List.length_reverse]
      omega)
  rw [List.nil_append, List.filter_reverse] at holds
  exact ⟨queue, read, holds⟩

end StartUp

/-- A regular file of three bytes. -/
def plainFile (dName : CString) (component : '/' ∉ dName) : InputFile where
  dName := dName
  accessible := true
  mtime := 0
  regular := true
  size := 3
  mapped := true
  directory := false
  component := component

def initialFile : InputFile :=
  plainFile "id:000000,time:0,orig:seed".toList (by decide)

def findFile : InputFile :=
  plainFile "id:000001,src:000000,time:7,op:flip1,pos:0".toList (by decide)

/-- A start-up that finds these files in its input directory. -/
def startWith (files : List InputFile) : StartUp where
  entries := fun _ => files
  fileExists := fun _ => false
  oldSeedSelection := false
  shuffleQueue := false
  shufflePtrs := id
  shuffled := fun nl => List.Perm.refl nl

end AFLPlusPlus
