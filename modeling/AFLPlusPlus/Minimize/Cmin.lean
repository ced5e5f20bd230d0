import AFLPlusPlus.Minimize.Showmap
import AFLPlusPlus.Support.Paths

/-!
# Corpus minimization

The script `afl-cmin`: from the traces of all input files it takes, for each
tuple from rare to frequent, the smallest file that has it, unless a file taken
before has the tuple too.  Files are known by their base names.
-/

namespace AFLPlusPlus

/-- A run of the script: how the target is run, the input directory, and the
trace of the first file that is left from the test of the target. -/
structure CminRun where
  showmap : Showmap
  inDir : List CorpusNode
  runTest : List CString

variable {fn : CString} {files : List CorpusFile}

namespace CminRun

variable (run : CminRun)

/-- `sort -k1n -k2r` on lines with a size and a path, in the C locale. -/
def sizeOrder (first second : CorpusFile) : Bool :=
  if first.content.length = second.content.length then
    notAfter second.path first.path
  else first.content.length < second.content.length

/-- `infilesSmallToBigFull`: the files that `find` prints, by size. -/
def infilesSmallToBig : List CorpusFile :=
  (CorpusNode.foundEntries [] run.inDir).mergeSort sizeOrder

/-- `infilesSmallToBigMap`: the last path with a base name. -/
def infilesSmallToBigMap : CString → CString :=
  run.infilesSmallToBig.foldl (fun map file =>
    Function.update map (Paths.baseName file.path) file.path) fun _ => []

/-- The lines of the files in `.traces`; a missing file has none. -/
abbrev TraceDir := CString → List CString

/-- `afl-showmap` replaces the trace file of the same name. -/
def writeTrace (traces : TraceDir) (file : CorpusFile) : TraceDir :=
  Function.update traces file.name.text
    (run.showmap.traceLines (file.content.take maxFile))

/-- `.traces` after the run of `afl-showmap`. -/
def traceDir : TraceDir :=
  (CorpusNode.inOrder (CorpusNode.executedEntries [] run.inDir)).foldl
    run.writeTrace
    (Function.update (fun _ => []) ".run_test".toList run.runTest)

/-- The arrays of the first loop; `keys` lists what `key_count` holds. -/
structure Tally where
  keys : List CString
  keyCount : CString → Nat
  bestFile : CString → Option CString

def tallyKey (fn : CString) (tally : Tally) (key : CString) : Tally where
  keys := if key ∈ tally.keys then tally.keys else tally.keys ++ [key]
  keyCount := Function.update tally.keyCount key (tally.keyCount key + 1)
  bestFile :=
    match tally.bestFile key with
    | some _ => tally.bestFile
    | none => Function.update tally.bestFile key (some fn)

def tallyFile (tally : Tally) (file : CorpusFile) : Tally :=
  let fn := Paths.baseName file.path
  (run.traceDir fn).foldl (tallyKey fn) tally

def tally : Tally :=
  run.infilesSmallToBig.foldl run.tallyFile
    { keys := []
      keyCount := fun _ => 0
      bestFile := fun _ => none }

/-- `sort -k1n` on lines with a count and a key. -/
def countOrder (first second : CString) : Bool :=
  if run.tally.keyCount first = run.tally.keyCount second then
    notAfter first second
  else run.tally.keyCount first < run.tally.keyCount second

/-- `.all_uniq`, from rare to frequent. -/
def sortedKeys : List CString := run.tally.keys.mergeSort run.countOrder

/-- The arrays of the last loop, with the calls of `cp_tool`. -/
structure Copying where
  keyAlreadyKnown : List CString
  fileAlreadyCopied : List CString
  copies : List (CString × CString)

/-- `.traces` with `.all_uniq`. -/
def sortedTraceDir : TraceDir :=
  Function.update run.traceDir ".all_uniq".toList run.sortedKeys

def copyRound (copying : Copying) (key : CString) : Copying :=
  if key ∈ copying.keyAlreadyKnown then copying
  else
    let fn := (run.tally.bestFile key).getD []
    let known := copying.keyAlreadyKnown ++ run.sortedTraceDir fn
    if fn ∈ copying.fileAlreadyCopied then
      { copying with keyAlreadyKnown := known }
    else
      { keyAlreadyKnown := known
        fileAlreadyCopied := copying.fileAlreadyCopied ++ [fn]
        copies := copying.copies ++ [(run.infilesSmallToBigMap fn, fn)] }

/-- The copies that the script makes, each with the path of the original in the
input directory and the name in the output directory. -/
def copies : List (CString × CString) :=
  (run.sortedKeys.foldl run.copyRound
    { keyAlreadyKnown := []
      fileAlreadyCopied := []
      copies := [] }).copies

/-- The tuples of an input file.  Empty files are not run. -/
def hits (file : CorpusFile) : List Showmap.MapTuple :=
  if file.content = [] then []
  else run.showmap.mapTuples (file.content.take maxFile)

def inputFiles : List CorpusFile := CorpusNode.foundEntries [] run.inDir

/-- The names of the script's own files: the scratch files in `.traces`, and
that directory itself. -/
def scratchNames : List CString :=
  [".traces".toList, ".run_test".toList, ".all_uniq".toList, ".cur_input".toList]

/-- An input directory in which base names identify the files. -/
structure DistinctNames : Prop where
  traversed : CorpusNode.BothTraverseEntries run.inDir
  distinct : (run.inputFiles.map fun file => file.name.text).Nodup
  ownNames : ∀ file ∈ run.inputFiles, file.name.text ∉ scratchNames

def lines (file : CorpusFile) : List CString := (run.hits file).map Showmap.tupleLine

variable {run}

variable {seen : List CString} {tuple : Showmap.MapTuple} {traces : TraceDir}

theorem infilesSmallToBig_perm (run : CminRun) :
    run.infilesSmallToBig.Perm run.inputFiles :=
  List.mergeSort_perm _ _

theorem mem_infilesSmallToBig {file : CorpusFile} :
    file ∈ run.infilesSmallToBig ↔ file ∈ run.inputFiles :=
  run.infilesSmallToBig_perm.mem_iff

theorem baseName_path {file : CorpusFile} (input : file ∈ run.inputFiles) :
    Paths.baseName file.path = file.name.text := by
  have plain : '/' ∉ file.name.text := fun member =>
    file.name.plain '/' member (by decide)
  rcases CorpusNode.foundEntries_atSlash (.inl rfl) run.inDir input with
    top | ⟨start, below⟩
  · rw [CorpusFile.path, top, List.nil_append]
    exact Paths.baseName_plain plain
  · rw [CorpusFile.path, below, List.append_assoc]
    exact Paths.baseName_slash start plain

theorem foldl_writeTrace_of_ne {name : CString}
    (others : ∀ file ∈ files, file.name.text ≠ name) :
    files.foldl run.writeTrace traces name = traces name := by
  induction files generalizing traces with
  | nil => rfl
  | cons file files induction =>
      rw [List.foldl_cons,
        induction fun other member =>
          others other (List.mem_cons_of_mem _ member)]
      exact Function.update_of_ne (others file List.mem_cons_self).symm _ _

theorem foldl_writeTrace {file : CorpusFile} (member : file ∈ files)
    (only : ∀ other ∈ files, other.name.text = file.name.text → other = file) :
    files.foldl run.writeTrace traces file.name.text =
      run.showmap.traceLines (file.content.take maxFile) := by
  induction files generalizing traces with
  | nil => cases member
  | cons head files induction =>
      rw [List.foldl_cons]
      by_cases later : file ∈ files
      · exact induction later fun other inside =>
          only other (List.mem_cons_of_mem _ inside)
      · have here : file = head := (List.mem_cons.mp member).resolve_right later
        subst here
        rw [foldl_writeTrace_of_ne]
        · exact Function.update_self _ _ _
        · intro other inside same
          rw [only other (List.mem_cons_of_mem _ inside) same] at inside
          exact later inside

namespace DistinctNames

theorem inj (distinct : run.DistinctNames) {first second : CorpusFile}
    (inFirst : first ∈ run.inputFiles) (inSecond : second ∈ run.inputFiles)
    (same : first.name.text = second.name.text) : first = second :=
  List.inj_on_of_nodup_map distinct.distinct inFirst inSecond same

section

variable {file : CorpusFile} (distinct : run.DistinctNames)
    (input : file ∈ run.inputFiles)
include distinct input

theorem traceDir_eq : run.traceDir file.name.text = run.lines file := by
  have executed : ∀ other,
      other ∈ CorpusNode.inOrder (CorpusNode.executedEntries [] run.inDir) ↔
        other ∈ run.inputFiles ∧ other.content ≠ [] := fun other => by
    rw [CorpusNode.mem_inOrder]
    exact CorpusNode.mem_executedEntries [] run.inDir distinct.traversed
  unfold traceDir lines hits
  by_cases empty : file.content = []
  · rw [if_pos empty, foldl_writeTrace_of_ne]
    · refine Function.update_of_ne ?_ _ _
      intro same
      exact distinct.ownNames file input (by rw [same]; decide)
    · intro other member same
      obtain ⟨otherInput, nonempty⟩ := (executed other).mp member
      rw [distinct.inj otherInput input same] at nonempty
      exact nonempty empty
  · rw [if_neg empty]
    refine foldl_writeTrace ((executed file).mpr ⟨input, empty⟩) ?_
    intro other member same
    exact distinct.inj ((executed other).mp member).1 input same

end

end DistinctNames

def holder (run : CminRun) (files : List CorpusFile) (key : CString) :
    Option CorpusFile :=
  files.find? fun file => decide (key ∈ run.lines file)

/-- What is known of the keys of some files and of some lines of the next. -/
structure Tallied (run : CminRun) (files : List CorpusFile) (fn : CString)
    (seen : List CString) (tally : Tally) : Prop where
  keys : ∀ key, key ∈ tally.keys ↔ (∃ file ∈ files, key ∈ run.lines file) ∨ key ∈ seen
  bestFile : ∀ key, tally.bestFile key =
    ((run.holder files key).map fun file => file.name.text).or
      (if key ∈ seen then some fn else none)

theorem Tallied.key {tally : Tally} (tallied : Tallied run files fn seen tally)
    (key : CString) :
    Tallied run files fn (seen ++ [key]) (tallyKey fn tally key) := by
  obtain ⟨keys, bestFile⟩ := tallied
  constructor
  · intro other
    rw [List.mem_append, List.mem_singleton, ← or_assoc, ← keys]
    unfold tallyKey
    dsimp only
    split
    · rename_i known
      constructor
      · exact .inl
      · rintro (old | rfl)
        · exact old
        · exact known
    · rw [List.mem_append, List.mem_singleton]
  · intro other
    have before := bestFile other
    unfold tallyKey
    dsimp only
    cases best : tally.bestFile key with
    | some name =>
        dsimp only
        rw [before]
        by_cases same : other = key
        · subst same
          rw [before] at best
          cases known : (run.holder files other).map
              fun file => file.name.text with
          | some earlier => rfl
          | none =>
              rw [known, Option.none_or] at best
              have inSeen : other ∈ seen := by
                by_contra absent
                rw [if_neg absent] at best
                cases best
              rw [if_pos inSeen, if_pos (List.mem_append_left _ inSeen)]
        · simp [same]
    | none =>
        dsimp only
        by_cases same : other = key
        · subst same
          rw [before, Option.or_eq_none_iff] at best
          rw [Function.update_self, best.1, Option.none_or,
            if_pos (List.mem_append_right _ (List.mem_singleton.mpr rfl))]
        · rw [Function.update_of_ne same, before]
          simp [same]

theorem Tallied.lines {tally : Tally} (tallied : Tallied run files fn seen tally)
    (rest : List CString) :
    Tallied run files fn (seen ++ rest) (rest.foldl (tallyKey fn) tally) := by
  induction rest generalizing seen tally with
  | nil =>
      rw [List.append_nil]
      exact tallied
  | cons key rest induction =>
      have next := induction (tallied.key key)
      rw [List.append_assoc, List.singleton_append] at next
      exact next

theorem Tallied.file {tally : Tally} (tallied : Tallied run files fn [] tally)
    (file : CorpusFile) (next : CString) :
    Tallied run (files ++ [file]) next []
      ((run.lines file).foldl (tallyKey file.name.text) tally) := by
  have again : Tallied run files file.name.text [] tally :=
    ⟨tallied.keys, fun key => by simpa using tallied.bestFile key⟩
  obtain ⟨keys, bestFile⟩ := again.lines (run.lines file)
  rw [List.nil_append] at keys bestFile
  constructor
  · intro key
    rw [keys]
    simp [or_comm, exists_or, or_and_right]
  · intro key
    rw [bestFile, holder, holder, List.find?_append]
    cases files.find? fun file => decide (key ∈ run.lines file) with
    | some holder => rfl
    | none =>
        by_cases has : key ∈ run.lines file
        · simp [has]
        · simp [has]

theorem DistinctNames.tallied (distinct : run.DistinctNames) :
    Tallied run run.infilesSmallToBig [] [] run.tally := by
  have inputs : ∀ file ∈ run.infilesSmallToBig, file ∈ run.inputFiles :=
    fun file => mem_infilesSmallToBig.mp
  have folded : ∀ (rest done : List CorpusFile) (tally : Tally),
      (∀ file ∈ rest, file ∈ run.inputFiles) →
      Tallied run done [] [] tally →
      Tallied run (done ++ rest) [] [] (rest.foldl run.tallyFile tally) := by
    intro rest
    induction rest with
    | nil =>
        intro done tally _ tallied
        rw [List.append_nil]
        exact tallied
    | cons file rest induction =>
        intro done tally inputs tallied
        have input := inputs file List.mem_cons_self
        have next := tallied.file file []
        rw [List.append_cons, List.foldl_cons]
        refine induction _ _ (fun other member =>
          inputs other (List.mem_cons_of_mem _ member)) ?_
        unfold tallyFile
        dsimp only
        rw [baseName_path input, distinct.traceDir_eq input]
        exact next
  have all := folded run.infilesSmallToBig []
    { keys := [], keyCount := fun _ => 0, bestFile := fun _ => none } inputs
    ⟨fun key => by simp, fun key => by simp [holder]⟩
  rw [List.nil_append] at all
  exact all

/-- What holds of the arrays of the last loop. -/
structure Copied (run : CminRun) (copying : Copying) : Prop where
  known : ∀ key, key ∈ copying.keyAlreadyKnown ↔
    ∃ file ∈ run.inputFiles,
      file.name.text ∈ copying.fileAlreadyCopied ∧ key ∈ run.lines file
  best : ∀ fn ∈ copying.fileAlreadyCopied, ∃ file ∈ run.inputFiles,
    file.name.text = fn ∧ ∃ key, run.holder run.infilesSmallToBig key = some file
  nodup : copying.fileAlreadyCopied.Nodup
  copies : copying.copies = copying.fileAlreadyCopied.map fun fn =>
    (run.infilesSmallToBigMap fn, fn)

theorem DistinctNames.sortedTraceDir_eq (distinct : run.DistinctNames)
    {file : CorpusFile} (input : file ∈ run.inputFiles) :
    run.sortedTraceDir file.name.text = run.lines file := by
  rw [sortedTraceDir, Function.update_of_ne, distinct.traceDir_eq input]
  intro same
  exact distinct.ownNames file input (by rw [same]; decide)

/-- A key of the list is known afterwards, and everything known stays so. -/
theorem Copied.round (distinct : run.DistinctNames) {copying : Copying}
    (copied : Copied run copying) {key : CString}
    (counted : key ∈ run.tally.keys) :
    Copied run (run.copyRound copying key) ∧
      key ∈ (run.copyRound copying key).keyAlreadyKnown ∧
      ∀ other ∈ copying.keyAlreadyKnown,
        other ∈ (run.copyRound copying key).keyAlreadyKnown := by
  unfold copyRound
  split
  · rename_i known
    exact ⟨copied, known, fun _ => id⟩
  · have tallied := distinct.tallied
    have hasHolder : ∃ file, run.holder run.infilesSmallToBig key = some file := by
      rcases (tallied.keys key).mp counted with ⟨file, listed, has⟩ | none
      · rw [← Option.isSome_iff_exists, holder, List.find?_isSome]
        exact ⟨file, listed, decide_eq_true has⟩
      · cases none
    obtain ⟨file, held⟩ := hasHolder
    have input : file ∈ run.inputFiles :=
      mem_infilesSmallToBig.mp (List.mem_of_find?_eq_some held)
    have has : key ∈ run.lines file := by
      simpa using List.find?_some held
    have best : run.tally.bestFile key = some file.name.text := by
      rw [tallied.bestFile, held]
      rfl
    simp only [best, Option.getD_some, distinct.sortedTraceDir_eq input]
    have added : ∀ other, other ∈ copying.keyAlreadyKnown ++ run.lines file ↔
        ∃ g ∈ run.inputFiles,
          (g.name.text ∈ copying.fileAlreadyCopied ∨
            g.name.text = file.name.text) ∧ other ∈ run.lines g := by
      intro other
      rw [List.mem_append, copied.known]
      constructor
      · rintro (⟨g, gInput, old, inLines⟩ | inLines)
        · exact ⟨g, gInput, .inl old, inLines⟩
        · exact ⟨file, input, .inr rfl, inLines⟩
      · rintro ⟨g, gInput, old | same, inLines⟩
        · exact .inl ⟨g, gInput, old, inLines⟩
        · rw [distinct.inj gInput input same] at inLines
          exact .inr inLines
    split
    · rename_i already
      refine ⟨⟨?_, copied.best, copied.nodup, copied.copies⟩,
        List.mem_append_right _ has, fun _ => List.mem_append_left _⟩
      intro other
      rw [added]
      refine exists_congr fun g => and_congr_right fun _ =>
        and_congr_left fun _ => ⟨?_, .inl⟩
      rintro (old | same)
      · exact old
      · rw [same]
        exact already
    · rename_i fresh
      refine ⟨⟨?_, ?_, ?_, ?_⟩, List.mem_append_right _ has,
        fun _ => List.mem_append_left _⟩
      · intro other
        rw [added]
        simp only [List.mem_append, List.mem_singleton]
      · intro fn member
        rcases List.mem_append.mp member with old | new
        · exact copied.best fn old
        · rw [List.mem_singleton.mp new]
          exact ⟨file, input, rfl, key, held⟩
      · exact List.nodup_append.mpr ⟨copied.nodup, List.nodup_singleton _,
          fun a old b new same => fresh (by
            rw [← List.mem_singleton.mp new, ← same]
            exact old)⟩
      · rw [List.map_append, copied.copies]
        rfl

theorem DistinctNames.copied (distinct : run.DistinctNames) :
    ∃ copying, run.copies = copying.copies ∧ Copied run copying ∧
      ∀ key ∈ run.tally.keys, key ∈ copying.keyAlreadyKnown := by
  have folded : ∀ (keys : List CString) (copying : Copying),
      (∀ key ∈ keys, key ∈ run.tally.keys) → Copied run copying →
      Copied run (keys.foldl run.copyRound copying) ∧
        ∀ key, key ∈ keys ∨ key ∈ copying.keyAlreadyKnown →
          key ∈ (keys.foldl run.copyRound copying).keyAlreadyKnown := by
    intro keys
    induction keys with
    | nil =>
        intro copying _ copied
        exact ⟨copied, fun key known => known.resolve_left List.not_mem_nil⟩
    | cons key keys induction =>
        intro copying counted copied
        obtain ⟨next, known, kept⟩ :=
          copied.round distinct (counted key List.mem_cons_self)
        obtain ⟨rest, all⟩ := induction _
          (fun other member => counted other (List.mem_cons_of_mem _ member))
          next
        refine ⟨rest, fun other => ?_⟩
        rintro (member | old)
        · rcases List.mem_cons.mp member with rfl | later
          · exact all _ (.inr known)
          · exact all _ (.inl later)
        · exact all _ (.inr (kept other old))
  have start : Copied run
      { keyAlreadyKnown := [], fileAlreadyCopied := [], copies := [] } :=
    ⟨fun key => by simp, fun fn none => absurd none List.not_mem_nil,
      List.nodup_nil, rfl⟩
  obtain ⟨copied, all⟩ := folded run.sortedKeys _
    (fun key member => List.mem_mergeSort.mp member) start
  exact ⟨_, rfl, copied, fun key member =>
    all key (.inl (List.mem_mergeSort.mpr member))⟩

end CminRun

end AFLPlusPlus
