import AFLPlusPlus.Support.Buffer
import AFLPlusPlus.Support.Decimal
import AFLPlusPlus.Sync.QueueListing

/-!
# Traces of a directory tree

`afl-showmap -Z -i` runs the target on the files of a directory tree and writes
the trace of each into one directory, a line for each tuple, under the base name
of the file.
-/

namespace AFLPlusPlus

def countClassHuman (count : BitVec 8) : Nat :=
  let n := count.toNat
  if n < 4 then n
  else if n < 4 + 4 then 4
  else if n < 8 + 8 then 5
  else if n < 16 + 16 then 6
  else if n < 32 + 96 then 7
  else 8

/-- How `afl-showmap` runs the target for `afl-cmin`. -/
structure Showmap where
  /-- the map that the target leaves for an input -/
  target : List (BitVec 8) → Buffer
  mapSize : Nat
  edgesOnly : Bool

namespace Showmap

variable (showmap : Showmap)

/-- The bytes of the map after `classify_counts`; a first byte of 1 only tells
that there is coverage at all. -/
def classified (input : List (BitVec 8)) (i : Nat) : Nat :=
  let raw := showmap.target input i
  let count := if i = 0 ∧ raw = 1#8 then 0#8 else raw
  if showmap.edgesOnly then if count = 0#8 then 0 else 1
  else countClassHuman count

abbrev MapTuple := Nat × Nat

def mapTuples (input : List (BitVec 8)) : List MapTuple :=
  ((List.range showmap.mapSize).filter fun i =>
    showmap.classified input i ≠ 0).map fun i =>
      (showmap.classified input i, i)

/-- `"%u%u"` -/
def tupleLine (tuple : MapTuple) : CString :=
  Decimal.print tuple.1 ++ Decimal.print tuple.2

/-- The lines that `write_results_to_file` writes in `cmin_mode`. -/
def traceLines (input : List (BitVec 8)) : List CString :=
  (showmap.mapTuples input).map tupleLine

variable {showmap}

variable {input : List (BitVec 8)} {tuple : MapTuple}

end Showmap

/-- A name in the input directory.  The script passes names on in lines and in
double quotes for the shell; these survive both. -/
structure FileName where
  text : CString
  plain : ∀ char ∈ text, char ∉ ['/', '\n', '"', '$', Char.ofNat 96, '\\']

inductive CorpusNode where
  | file (name : FileName) (content : List (BitVec 8))
  | directory (name : FileName) (entries : List CorpusNode)

/-- A regular file of the tree with its path in it. -/
structure CorpusFile where
  /-- the directory, with a slash behind each component -/
  directory : CString
  name : FileName
  content : List (BitVec 8)

def CorpusFile.path (file : CorpusFile) : CString := file.directory ++ file.name.text

variable {file : CorpusFile}

namespace CorpusNode

def name : CorpusNode → FileName
  | .file name _ => name
  | .directory name _ => name

/-- The contents of a directory, put into the order of `alphasort`. -/
def inOrder (contents : List (CString × List CorpusFile)) : List CorpusFile :=
  (contents.mergeSort fun first second => notAfter first.1 second.1).flatMap
    Prod.snd

mutual

/-- The files that `execute_testcases` runs, in its order. -/
def executed (directory : CString) : CorpusNode → List CorpusFile
  | .file name content =>
      if content = [] then [] else [⟨directory, name, content⟩]
  | .directory name entries =>
      if name.text.head? = some '.' then []
      else
        inOrder (executedEntries (directory ++ name.text ++ ['/']) entries)

def executedEntries (directory : CString) :
    List CorpusNode → List (CString × List CorpusFile)
  | [] => []
  | node :: rest =>
      (node.name.text, executed directory node) :: executedEntries directory rest

end

mutual

/-- The files that `find` prints, in no particular order. -/
def found (directory : CString) : CorpusNode → List CorpusFile
  | .file name content => [⟨directory, name, content⟩]
  | .directory name entries =>
      foundEntries (directory ++ name.text ++ ['/']) entries

def foundEntries (directory : CString) : List CorpusNode → List CorpusFile
  | [] => []
  | node :: rest => found directory node ++ foundEntries directory rest

end

mutual

/-- No directory below is hidden: `find` would look into it and
`execute_testcases` would not. -/
def BothTraverse : CorpusNode → Prop
  | .file _ _ => True
  | .directory name entries =>
      name.text.head? ≠ some '.' ∧ BothTraverseEntries entries

def BothTraverseEntries : List CorpusNode → Prop
  | [] => True
  | node :: rest => BothTraverse node ∧ BothTraverseEntries rest

end

def AtSlash (directory : CString) : Prop :=
  directory = [] ∨ ∃ start, directory = start ++ ['/']

mutual

theorem found_atSlash {directory : CString} (slash : AtSlash directory) :
    ∀ node : CorpusNode, file ∈ found directory node → AtSlash file.directory
  | .file name content, member => by
      rw [found, List.mem_singleton] at member
      rw [member]
      exact slash
  | .directory name entries, member => by
      rw [found] at member
      exact foundEntries_atSlash (.inr ⟨_, rfl⟩) entries member

theorem foundEntries_atSlash {directory : CString} (slash : AtSlash directory) :
    ∀ entries : List CorpusNode, file ∈ foundEntries directory entries →
      AtSlash file.directory
  | [], member => by
      rw [foundEntries] at member
      cases member
  | node :: rest, member => by
      rw [foundEntries, List.mem_append] at member
      rcases member with inside | later
      · exact found_atSlash slash node inside
      · exact foundEntries_atSlash slash rest later

end

theorem mem_inOrder {contents : List (CString × List CorpusFile)} :
    file ∈ inOrder contents ↔ ∃ entry ∈ contents, file ∈ entry.2 := by
  rw [inOrder, List.mem_flatMap]
  constructor
  · rintro ⟨entry, member, inside⟩
    exact ⟨entry, List.mem_mergeSort.mp member, inside⟩
  · rintro ⟨entry, member, inside⟩
    exact ⟨entry, List.mem_mergeSort.mpr member, inside⟩

mutual

theorem executed_perm (directory : CString) :
    ∀ node : CorpusNode, node.BothTraverse →
      (executed directory node).Perm ((found directory node).filter (·.content ≠ []))
  | .file name content, _ => by
      rw [executed, found]
      by_cases empty : content = []
      · rw [if_pos empty, List.filter_cons_of_neg (by simp [empty]), List.filter_nil]
      · rw [if_neg empty, List.filter_cons_of_pos (by simp [empty]), List.filter_nil]
  | .directory name entries, traversed => by
      rw [BothTraverse] at traversed
      rw [executed, found, if_neg traversed.1, inOrder]
      exact ((List.mergeSort_perm _ _).flatMap_right _).trans
        (executedEntries_perm _ entries traversed.2)

theorem executedEntries_perm (directory : CString) :
    ∀ entries : List CorpusNode, BothTraverseEntries entries →
      ((executedEntries directory entries).flatMap Prod.snd).Perm
        ((foundEntries directory entries).filter (·.content ≠ []))
  | [], _ => .nil
  | node :: rest, traversed => by
      rw [BothTraverseEntries] at traversed
      rw [executedEntries, foundEntries, List.flatMap_cons, List.filter_append]
      exact (executed_perm directory node traversed.1).append
        (executedEntries_perm directory rest traversed.2)

end

theorem mem_executedEntries (directory : CString) (entries : List CorpusNode)
    (traversed : BothTraverseEntries entries) :
    (∃ entry ∈ executedEntries directory entries, file ∈ entry.2) ↔
      file ∈ foundEntries directory entries ∧ file.content ≠ [] := by
  rw [← List.mem_flatMap, (executedEntries_perm directory entries traversed).mem_iff,
    List.mem_filter, decide_eq_true_eq]

end CorpusNode

end AFLPlusPlus
