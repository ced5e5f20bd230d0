import AFLPlusPlus.Queue.PivotInputs

/-!
# Resuming a run

What `read_testcases` and `pivot_inputs` make of the queue directory of an
earlier run, and when each of its files gets its old id, name and depth.
-/

namespace AFLPlusPlus

namespace StartUp

variable (start : StartUp)

/-- The corpus part of the start-up: reading and pivoting. -/
def resume (fuel : Nat) (inDir outDir : CString) : Option Pivoting :=
  match start.readInput fuel inDir with
  | none => none
  | some queue => some (pivotInputs outDir queue)

/-- The queue directory of an earlier run: the files of the cases 0, 1, 2, …,
whose names record their ids, and hidden directories.  Names that
`pivot_inputs` has kept need not have six digits. -/
structure WrittenQueue (dir : CString) (cases : List InputFile) : Prop where
  distinct : ((start.entries dir).map fun file => file.dName).Nodup
  accessible : ∀ file ∈ start.entries dir, file.accessible = true
  files : ∃ hidden : List InputFile, (start.entries dir).Perm
    (hidden ++ cases) ∧ ∀ file ∈ hidden, file.directory = true ∧
      file.regular = false ∧ file.dName.head? = some '.'
  content : ∀ file ∈ cases, file.regular = true ∧ file.directory = false ∧
    file.size ≠ 0
  recorded : ∀ id (inside : id < cases.length),
    recordedId (cases.get ⟨id, inside⟩).dName = some id
  nonempty : cases ≠ []
  few : cases.length ≤ 1000000

end StartUp

/-- The source of a case, from its name: the value of a field `src` that comes
first after the id.  The `src` of an imported case stands after `sync` and is
about the queue of another fuzzer. -/
def namedSource (name : CString) : Option Nat :=
  if ",src".toList.isSuffixOf ((name.drop 3).takeWhile (· ≠ ':')) then
    sourceNumber name
  else none

/-- Each file has its old id and name, and the depth that its source gives. -/
structure KeepsIdentity (dir outDir : CString) (cases : List InputFile)
    (pivoting : Pivoting) : Prop where
  names : ∀ id (inside : id < cases.length),
    ∃ q, pivoting.queue.queueBuf id = some q ∧ q.id = id ∧
      q.fname = queuePath outDir (cases.get ⟨id, inside⟩).dName ∧
      ((cases.get ⟨id, inside⟩).path dir, q.fname) ∈ pivoting.links
  depths : ∀ id (inside : id < cases.length),
    pivoting.depthAt id =
      match namedSource (cases.get ⟨id, inside⟩).dName with
      | none => 1
      | some source =>
          if source < cases.length then pivoting.depthAt source + 1 else 1

/-- The numbers after the first colon past the ids are sources where they are
ids of entries, and the sources come first or have no such number
themselves. -/
def SourcesFit (cases : List InputFile) : Prop :=
  ∀ id (inside : id < cases.length) source,
    sourceNumber (cases.get ⟨id, inside⟩).dName = some source →
    ∀ sourceInside : source < cases.length,
      namedSource (cases.get ⟨id, inside⟩).dName = some source ∧ source ≠ id ∧
        (id < source → ∀ further,
          sourceNumber (cases.get ⟨source, sourceInside⟩).dName = some further →
            cases.length ≤ further)

theorem sourceNumber_of_namedSource {name : CString} {source : Nat}
    (named : namedSource name = some source) :
    sourceNumber name = some source := by
  unfold namedSource at named
  split at named
  · exact named
  · cases named

theorem path_injective {dir : CString} {first second : DirEntry}
    (same : first.path dir = second.path dir) :
    first.dName = second.dName :=
  (List.cons.inj (List.append_cancel_left same)).2

variable {id : Nat} {pivoting : Pivoting}

namespace StartUp.WrittenQueue

variable {start : StartUp} {inDir dir outDir : CString}
  {cases : List InputFile}

section

variable (written : start.WrittenQueue dir cases)
include written

theorem loaded_perm :
    ((start.listing dir).filter (loads dir)).Perm
      (cases.filter (loads dir)) := by
  obtain ⟨hidden, permutation, dots⟩ := written.files
  have none : hidden.filter (loads dir) = [] := by
    rw [List.filter_eq_nil_iff]
    intro file member
    rw [loads, (dots file member).2.1]
    exact Bool.false_ne_true
  have same := (((start.listing_perm dir).trans permutation).filter (loads dir))
  rw [List.filter_append, none, List.nil_append] at same
  exact same

theorem flat : start.Flat dir where
  accessible := written.accessible
  hidden := by
    intro file member isDirectory
    obtain ⟨hidden, permutation, dots⟩ := written.files
    rcases List.mem_append.mp (permutation.mem_iff.mp member) with dot | isCase
    · exact (dots file dot).2.2
    · rw [(written.content file isCase).2.1] at isDirectory
      cases isDirectory
  few := by
    have length := ((start.listing_perm dir).filter (loads dir)).length_eq
    have loaded := written.loaded_perm.length_eq
    have fewer := List.length_filter_le (loads dir) cases
    have few := written.few
    omega

theorem case_inj {first second : InputFile} (inFirst : first ∈ start.entries dir)
    (inSecond : second ∈ start.entries dir) (same : first.dName = second.dName) :
    first = second :=
  List.inj_on_of_nodup_map written.distinct inFirst inSecond same

theorem index_of_pivotName {index : Nat} (indexInside : index < cases.length)
    (inside : id < cases.length)
    (same : pivotName index (cases.get ⟨id, inside⟩).dName =
      (cases.get ⟨id, inside⟩).dName) : index = id := by
  have recorded := written.recorded id inside
  have few := written.few
  unfold pivotName at same
  split at same
  · rename_i kept
    rw [recorded] at kept
    exact (Option.some.inj kept).symm
  · rw [← same, inventedName, List.append_assoc,
      recordedId_idEntry (by omega)] at recorded
    exact Option.some.inj recorded

/-- Only a listing from the last id to the first gives every file its old id
and name. -/
theorem listing_of_names {files : List InputFile}
    (loaded : files.Perm (cases.filter (StartUp.loads dir)))
    (pivoted : Pivoting.Pivoted dir outDir files files.length pivoting)
    (names : ∀ id (inside : id < cases.length),
      ∃ q, pivoting.queue.queueBuf id = some q ∧ q.id = id ∧
        q.fname = queuePath outDir (cases.get ⟨id, inside⟩).dName ∧
        ((cases.get ⟨id, inside⟩).path dir, q.fname) ∈ pivoting.links) :
    files = cases := by
  have fewer : files.length ≤ cases.length := by
    rw [loaded.length_eq]
    exact List.length_filter_le _ _
  have inCases : ∀ file ∈ files, file ∈ cases := fun file member =>
    (List.mem_filter.mp (loaded.mem_iff.mp member)).1
  obtain ⟨hidden, permutation, _⟩ := written.files
  have inEntries : ∀ file ∈ cases, file ∈ start.entries dir :=
    fun file member =>
      permutation.mem_iff.mpr (List.mem_append_right hidden member)
  have atIndex : ∀ id (inside : id < cases.length),
      ∃ within : id < files.length,
        files.get ⟨id, within⟩ = cases.get ⟨id, inside⟩ := by
    intro id inside
    obtain ⟨q, _, _, fname, linked⟩ := names id inside
    obtain ⟨index, within, _, same⟩ := (pivoted.links _).mp linked
    have paths := (Prod.mk.inj same).1
    have newNames := (Prod.mk.inj same).2
    have dName := path_injective paths
    rw [fname, ← dName] at newNames
    have kept := List.append_cancel_left newNames
    have equal := written.index_of_pivotName (by omega) inside kept.symm
    subst equal
    refine ⟨within, written.case_inj ?_ ?_ dName.symm⟩
    · exact inEntries _ (inCases _ (List.get_mem files _))
    · exact inEntries _ (List.get_mem cases _)
  have length : files.length = cases.length := by
    by_contra different
    obtain ⟨within, _⟩ := atIndex files.length (by omega)
    exact absurd within (Nat.lt_irrefl _)
  refine List.ext_get length fun id within inside => ?_
  exact (atIndex id inside).2

end

section

variable (written : start.WrittenQueue dir cases)
    (pivoted : Pivoting.Pivoted dir outDir cases cases.length pivoting)
include written pivoted

section

variable (inside : id < cases.length)
include inside

/-- With every name kept, a depth comes from the number in the name. -/
theorem depthAt_eq :
    pivoting.depthAt id =
      match sourceNumber (cases.get ⟨id, inside⟩).dName with
      | none => 1
      | some source =>
          if source < cases.length then
            (if source < id then pivoting.depthAt source else 1) + 1
          else 1 := by
  obtain ⟨q, entry, _, _, depth⟩ := pivoted.pivoted id inside inside
  unfold Pivoting.DepthFrom at depth
  rw [if_pos (written.recorded id inside)] at depth
  have here : pivoting.depthAt id = q.depth := by
    rw [Pivoting.depthAt, entry]
  exact here.trans depth

theorem depthAt_counted {source : Nat}
    (number : sourceNumber (cases.get ⟨id, inside⟩).dName = some source)
    (counted : source < cases.length) :
    pivoting.depthAt id =
      (if source < id then pivoting.depthAt source else 1) + 1 := by
  have depth := written.depthAt_eq pivoted inside
  rw [number] at depth
  dsimp only at depth
  rw [if_pos counted] at depth
  exact depth

theorem depthAt_uncounted
    (none : ∀ source, sourceNumber (cases.get ⟨id, inside⟩).dName =
      some source → cases.length ≤ source) :
    pivoting.depthAt id = 1 := by
  rw [written.depthAt_eq pivoted inside]
  split
  · rfl
  · rename_i source number
    rw [if_neg (Nat.not_lt.mpr (none source number))]

theorem depthAt_pos : 0 < pivoting.depthAt id := by
  rw [written.depthAt_eq pivoted inside]
  split
  · exact Nat.one_pos
  · split <;> exact Nat.succ_pos _

end

/-- The depths agree with the sources exactly when the numbers in the names
fit. -/
theorem depths_iff :
    (∀ id (inside : id < cases.length),
      pivoting.depthAt id =
        match namedSource (cases.get ⟨id, inside⟩).dName with
        | none => 1
        | some source =>
            if source < cases.length then pivoting.depthAt source + 1
            else 1) ↔
      SourcesFit cases := by
  constructor
  · intro depths id inside source number counted
    have given := written.depthAt_counted pivoted inside number counted
    have wanted := depths id inside
    have atLeast : 1 < pivoting.depthAt id := by
      have positive := written.depthAt_pos pivoted counted
      rw [given]
      split <;> omega
    cases named : namedSource (cases.get ⟨id, inside⟩).dName with
    | none =>
        rw [named] at wanted
        dsimp only at wanted
        omega
    | some other =>
        have same := sourceNumber_of_namedSource named
        rw [number] at same
        obtain rfl := Option.some.inj same
        rw [named] at wanted
        dsimp only at wanted
        rw [if_pos counted] at wanted
        refine ⟨rfl, ?_, ?_⟩
        · rintro rfl
          omega
        · intro later further numbered
          by_contra few
          have deeper := written.depthAt_counted pivoted counted numbered
            (by omega)
          have positive := written.depthAt_pos pivoted
            (show further < cases.length by omega)
          rw [if_neg (by omega)] at given
          split at deeper <;> omega
  · intro fit id inside
    cases number : sourceNumber (cases.get ⟨id, inside⟩).dName with
    | none =>
        have unnamed : namedSource (cases.get ⟨id, inside⟩).dName = none := by
          rw [Option.eq_none_iff_forall_ne_some]
          intro source named
          rw [sourceNumber_of_namedSource named] at number
          cases number
        rw [unnamed]
        refine written.depthAt_uncounted pivoted inside fun source other => ?_
        rw [number] at other
        cases other
    | some source =>
        by_cases counted : source < cases.length
        · obtain ⟨named, different, later⟩ := fit id inside source number counted
          rw [named]
          dsimp only
          rw [if_pos counted, written.depthAt_counted pivoted inside number counted]
          split
          · rfl
          · rw [written.depthAt_uncounted pivoted counted (later (by omega))]
        · have alone : pivoting.depthAt id = 1 :=
            written.depthAt_uncounted pivoted inside fun other same => by
              rw [number] at same
              rw [← Option.some.inj same]
              exact Nat.not_lt.mp counted
          rw [alone]
          split
          · rfl
          · rename_i other named
            have same := sourceNumber_of_namedSource named
            rw [number] at same
            rw [← Option.some.inj same, if_neg counted]

end

/-- What is loaded is pivoted, unless it is nothing. -/
theorem resume_eq (written : start.WrittenQueue (start.inputDir inDir) cases)
    (fuel : Nat) (outDir : CString) {files : List InputFile}
    (loaded : ((start.listing (start.inputDir inDir)).filter
      (StartUp.loads (start.inputDir inDir))).reverse = files) :
    ∃ queue, CorpusQueue.Holds (start.inputDir inDir) files queue ∧
      start.resume (fuel + 1) inDir outDir =
        if files.length = 0 then none
        else some (pivotInputs outDir queue) := by
  obtain ⟨queue, read, holds⟩ := written.flat.readTestcases
    (start.inputDir inDir) fuel
    (!start.fileExists (inDir ++ "/queue".toList))
  rw [loaded] at holds
  refine ⟨queue, holds, ?_⟩
  rw [StartUp.resume, StartUp.readInput, read, ← holds.1]
  by_cases none : queue.queuedPaths = 0
  · simp only [none, if_true]
  · simp only [none, if_false]

theorem listing_of_keepsIdentity
    (written : start.WrittenQueue (start.inputDir inDir) cases) {fuel : Nat}
    (resumed : start.resume (fuel + 1) inDir outDir = some pivoting)
    (keeps : KeepsIdentity (start.inputDir inDir) outDir cases pivoting) :
    (start.listing (start.inputDir inDir)).filter
        (StartUp.loads (start.inputDir inDir)) = cases.reverse ∧
      SourcesFit cases := by
  obtain ⟨queue, holds, result⟩ := written.resume_eq fuel outDir rfl
  rw [result] at resumed
  split at resumed
  · cases resumed
  · obtain rfl := Option.some.inj resumed
    have pivoted : Pivoting.Pivoted _ outDir _ _ _ :=
      Pivoting.pivotInputs_pivoted holds
    have loaded := written.listing_of_names
      ((List.reverse_perm _).trans written.loaded_perm) pivoted keeps.names
    rw [loaded] at pivoted
    refine ⟨?_, (written.depths_iff pivoted).mp keeps.depths⟩
    rw [← loaded, List.reverse_reverse]

/-- Names with six digits are listed by id: only one of them can be listed
from the last to the first. -/
theorem single_of_listing (written : start.WrittenQueue dir cases)
    (unshuffled : ¬(start.oldSeedSelection = true ∧ start.shuffleQueue = true))
    (sixDigits : ∀ id (inside : id < cases.length),
      ∃ rest, (cases.get ⟨id, inside⟩).dName = idEntry id ++ rest)
    (listed : (start.listing dir).filter (StartUp.loads dir) =
      cases.reverse) : cases.length = 1 := by
  have positive : cases.length ≠ 0 := mt List.length_eq_zero_iff.mp written.nonempty
  by_contra several
  have zeroInside : 0 < cases.length := by omega
  have oneInside : 1 < cases.length := by omega
  have sorted : (start.listing dir).Pairwise fun first second =>
      notAfter first.dName second.dName = true := by
    unfold StartUp.listing
    dsimp only
    rw [if_neg fun all => unshuffled ⟨all.1, all.2.1⟩]
    refine List.pairwise_mergeSort ?_ ?_ _
    · exact fun _ _ _ before after => notAfter_trans before after
    · intro first second
      exact Bool.or_eq_true_iff.mpr (notAfter_total first.dName second.dName)
  have descending := sorted.sublist (List.filter_sublist (p := StartUp.loads dir))
  rw [listed, List.pairwise_reverse] at descending
  have oneFirst := List.pairwise_iff_getElem.mp descending 0 1 zeroInside
    oneInside Nat.one_pos
  obtain ⟨zeroRest, zeroName⟩ := sixDigits 0 zeroInside
  obtain ⟨oneRest, oneName⟩ := sixDigits 1 oneInside
  have zeroFirst := idEntry_notAfter Nat.one_pos (by decide) zeroRest oneRest
  rw [← zeroName, ← oneName] at zeroFirst
  have sameName := notAfter_antisymm zeroFirst oneFirst
  have zeroRecorded := written.recorded 0 zeroInside
  rw [sameName, written.recorded 1 oneInside] at zeroRecorded
  exact absurd (Option.some.inj zeroRecorded) (by decide)

end StartUp.WrittenQueue

/-- Resuming keeps the ids, the names and the depths exactly when the files of
the cases are listed from the last id to the first and the numbers in their
names fit. -/
theorem resume_keepsIdentity_iff {start : StartUp} {inDir : CString}
    {cases : List InputFile}
    (written : start.WrittenQueue (start.inputDir inDir) cases)
    (fuel : Nat) (outDir : CString) :
    (∃ pivoting, start.resume (fuel + 1) inDir outDir = some pivoting ∧
        KeepsIdentity (start.inputDir inDir) outDir cases pivoting) ↔
      (start.listing (start.inputDir inDir)).filter
          (StartUp.loads (start.inputDir inDir)) = cases.reverse ∧
        SourcesFit cases := by
  constructor
  · rintro ⟨pivoting, resumed, keeps⟩
    exact written.listing_of_keepsIdentity resumed keeps
  · rintro ⟨listed, fit⟩
    have loaded := congrArg List.reverse listed
    rw [List.reverse_reverse] at loaded
    obtain ⟨queue, holds, result⟩ := written.resume_eq fuel outDir loaded
    have pivoted : Pivoting.Pivoted _ outDir _ _ _ :=
      Pivoting.pivotInputs_pivoted holds
    rw [if_neg (mt List.length_eq_zero_iff.mp written.nonempty)] at result
    refine ⟨_, result, ?_, (written.depths_iff pivoted).mpr fit⟩
    intro id inside
    obtain ⟨q, entry, ownId, fname, _⟩ := pivoted.pivoted id inside inside
    rw [pivotName, if_pos (written.recorded id inside)] at fname
    refine ⟨q, entry, ownId, fname, (pivoted.links _).mpr ?_⟩
    refine ⟨id, inside, inside, ?_⟩
    rw [pivotName, if_pos (written.recorded id inside), fname]

def initialCase : List InputFile := [plainFile "id:000000,seed".toList (by decide)]

theorem resume_keepsIdentity_initialCase :
    ∃ pivoting, (startWith initialCase).resume 1 [] [] = some pivoting ∧
      KeepsIdentity [] [] initialCase pivoting := by
  have written : (startWith initialCase).WrittenQueue
      ((startWith initialCase).inputDir []) initialCase := by
    constructor
    · decide
    · decide
    · exact ⟨[], .refl _, by simp⟩
    · decide
    · decide
    · decide
    · decide
  refine (resume_keepsIdentity_iff written 0 []).mpr ⟨?_, ?_⟩
  · simp [StartUp.listing, startWith, initialCase, StartUp.loads, plainFile,
      DirEntry.isReadme]
    decide
  · intro id inside source number
    obtain rfl : id = 0 := Nat.lt_one_iff.mp inside
    have none : sourceNumber "id:000000,seed".toList = none := by decide
    rw [show (initialCase.get ⟨0, inside⟩).dName = "id:000000,seed".toList
      from rfl, none] at number
    cases number

def initialCaseAndFind : List InputFile := [initialFile, findFile]

/-- The find is read first and becomes entry 0 under a new name. -/
theorem resume_not_keepsIdentity_find :
    (startWith initialCaseAndFind).WrittenQueue [] initialCaseAndFind ∧
      ¬∃ pivoting, (startWith initialCaseAndFind).resume 1 [] [] = some pivoting ∧
        KeepsIdentity [] [] initialCaseAndFind pivoting := by
  have written : (startWith initialCaseAndFind).WrittenQueue
      ((startWith initialCaseAndFind).inputDir []) initialCaseAndFind := by
    constructor
    · decide
    · decide
    · exact ⟨[], .refl _, by simp⟩
    · decide
    · decide
    · decide
    · decide
  refine ⟨written, ?_⟩
  rintro ⟨pivoting, resumed, keeps⟩
  have listed := (written.listing_of_keepsIdentity resumed keeps).1
  have single := written.single_of_listing (by decide) ?_ listed
  · exact absurd single (by decide)
  · intro id inside
    match id, inside with
    | 0, _ => exact ⟨",time:0,orig:seed".toList, rfl⟩
    | 1, _ => exact ⟨",src:000000,time:7,op:flip1,pos:0".toList, rfl⟩

end AFLPlusPlus
