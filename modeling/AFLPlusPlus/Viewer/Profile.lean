import AFLPlusPlus.Support.Interning

/-!
# The profile of the viewer

`aflv` rewrites the profile which the LTO pass prints: it drops instructions of
system libraries, numbers the files of the others, and adds a table of these
files with their text.
-/

namespace AFLPlusPlus.Viewer

structure File where
  id : Nat
  directory : String
  filename : String
  source : Option String
  deriving DecidableEq, Repr

/-- An instruction; `others` are the members the program does not look at. -/
structure Instruction where
  directory : String
  filename : String
  line : Nat
  fileId : Option Nat
  others : List (String × String)
  deriving DecidableEq, Repr

structure BasicBlock where
  id : Nat
  instructions : List Instruction
  others : List (String × String)
  deriving DecidableEq, Repr

structure Profile where
  files : Option (List File)
  basicBlocks : List BasicBlock
  others : List (String × String)
  deriving DecidableEq, Repr

def Profile.instructions (profile : Profile) : List Instruction :=
  profile.basicBlocks.flatMap BasicBlock.instructions

/-- The paths are taken from right to left until one is absolute. -/
def joinFromRight : List (List Char) → List Char → List Char
  | [], resolved => resolved
  | path :: paths, resolved =>
      if path.isEmpty then joinFromRight paths resolved
      else if path.head? = some '/' then path ++ '/' :: resolved
      else joinFromRight paths (path ++ '/' :: resolved)

/-- One part of a path, after the parts before it. -/
def normalizePart (parts : List (List Char)) (part : List Char) : List (List Char) :=
  if part.isEmpty || part = ['.'] then parts
  else if part = ['.', '.'] then parts.dropLast
  else parts ++ [part]

/-- `path.resolve(directory, filename)` in the directory `cwd`. -/
def pathResolve (cwd directory filename : String) : String :=
  let resolved := joinFromRight
    [filename.toList, directory.toList, cwd.toList] []
  let parts := (resolved.splitOn '/').foldl normalizePart []
  String.ofList ('/' :: ['/'].intercalate parts)

def startsWith (text start : String) : Bool := start.toList.isPrefixOf text.toList

/-- The instructions `filterFiles` keeps. -/
def passesFilter (inst : Instruction) : Bool :=
  !startsWith inst.filename "/usr/lib/gcc/" &&
    !startsWith inst.filename "/rustc/" &&
    !startsWith inst.directory "/usr/share/crystal/src" &&
    !(inst.directory = "." && inst.filename = "??")

def filterFiles (profile : Profile) : Profile :=
  { profile with
    basicBlocks := profile.basicBlocks.map fun block =>
      { block with instructions := block.instructions.filter passesFilter } }

/-- `Map<string, File>`, in the order of insertion. -/
abbrev FileMap := List (String × File)

/-- One instruction in the loop: its file is looked up and added if it is not
known. -/
def assignFileId (cwd : String) (fileMap : FileMap) (inst : Instruction) :
    FileMap × Instruction :=
  let absolutePath := pathResolve cwd inst.directory inst.filename
  match fileMap.lookup absolutePath with
  | none =>
      let fileId := fileMap.length
      (fileMap ++ [(absolutePath, ⟨fileId, inst.directory, inst.filename, none⟩)],
        { inst with fileId := some fileId })
  | some file => (fileMap, { inst with fileId := some file.id })

def assignFileIds (cwd : String) :
    FileMap → List Instruction → FileMap × List Instruction
  | fileMap, [] => (fileMap, [])
  | fileMap, inst :: insts =>
      let (fileMap, inst) := assignFileId cwd fileMap inst
      let (fileMap, insts) := assignFileIds cwd fileMap insts
      (fileMap, inst :: insts)

def assignBlocks (cwd : String) : FileMap → List BasicBlock → FileMap × List BasicBlock
  | fileMap, [] => (fileMap, [])
  | fileMap, block :: blocks =>
      let (fileMap, instructions) := assignFileIds cwd fileMap block.instructions
      let (fileMap, blocks) := assignBlocks cwd fileMap blocks
      (fileMap, { block with instructions } :: blocks)

/-- The text of each file that can be read. -/
def readSources (readFile : String → Option String) (fileMap : FileMap) : List File :=
  fileMap.map fun (absolutePath, file) =>
    { file with source := readFile absolutePath }

/-- `rewriteProfile` after the profile was parsed.  The members of the profile
come after `files` in the new object, so that they replace it. -/
def rewriteProfile (cwd : String) (readFile : String → Option String)
    (profile : Profile) : Profile :=
  let profile := filterFiles profile
  let (fileMap, basicBlocks) := assignBlocks cwd [] profile.basicBlocks
  let profile := { profile with basicBlocks }
  { profile with
    files := profile.files.or (some (readSources readFile fileMap)) }

def Instruction.resolved (cwd : String) (inst : Instruction) : String :=
  pathResolve cwd inst.directory inst.filename

def File.resolved (cwd : String) (file : File) : String :=
  pathResolve cwd file.directory file.filename

def BasicBlock.withoutFileIds (block : BasicBlock) : BasicBlock :=
  { block with
    instructions := block.instructions.map fun inst =>
      { inst with fileId := none } }

/-- The profile is rewritten as it should be. -/
structure RewriteCorrect (cwd : String) (before after : Profile) : Prop where
  /-- the instructions that pass the filter are left, in order, and nothing but
  their file ids is changed in the blocks -/
  kept : after.basicBlocks.map BasicBlock.withoutFileIds =
    before.basicBlocks.map fun block =>
      { block with
        instructions := block.instructions.filter
          passesFilter }.withoutFileIds
  numbered : ∀ inst ∈ after.instructions, inst.fileId ≠ none
  dense : ∀ inst ∈ after.instructions, ∀ id, inst.fileId = some id →
    ∀ smaller < id, ∃ other ∈ after.instructions, other.fileId = some smaller
  same : ∀ first ∈ after.instructions, ∀ second ∈ after.instructions,
    first.fileId = second.fileId ↔ first.resolved cwd = second.resolved cwd
  listed : ∃ files, after.files = some files ∧
    ∀ inst ∈ after.instructions, ∀ id, inst.fileId = some id →
      (∃ file ∈ files, file.id = id) ∧
        ∀ file ∈ files, file.id = id → file.resolved cwd = inst.resolved cwd
  others : after.others = before.others

/-- The files of the instructions that are kept, in the order of their first
occurrence. -/
def keptFiles (cwd : String) (profile : Profile) : List String :=
  Interning.addAll [] ((profile.instructions.filter passesFilter).map
    (Instruction.resolved cwd))

/-- A table lists `paths` by their numbers. -/
def ListsFiles (cwd : String) (files : List File) (paths : List String) :
    Prop :=
  ∀ id path, paths[id]? = some path →
    (∃ file ∈ files, file.id = id) ∧
      ∀ file ∈ files, file.id = id → file.resolved cwd = path

open Interning

def FileMap.paths (fileMap : FileMap) : List String := fileMap.map Prod.fst

/-- Every file is numbered by its place and listed under its path. -/
structure FileMap.Fits (cwd : String) (fileMap : FileMap) : Prop where
  distinct : (FileMap.paths fileMap).Nodup
  entries : ∀ place path (file : File), fileMap[place]? = some (path, file) →
    file.id = place ∧ file.resolved cwd = path

/-- An instruction with the number of its file. -/
def Instruction.withNumber (cwd : String) (paths : List String)
    (inst : Instruction) : Instruction :=
  { inst with fileId := some (paths.idxOf (inst.resolved cwd)) }

theorem Instruction.withNumber_of_grows {cwd : String}
    {paths longer : List String} (grows : paths <+: longer)
    {inst : Instruction} (known : inst.resolved cwd ∈ paths) :
    inst.withNumber cwd longer = inst.withNumber cwd paths := by
  unfold withNumber
  rw [idxOf_of_grows grows known]

variable {fileMap : FileMap}

theorem assignFileId_spec {cwd : String} (fits : FileMap.Fits cwd fileMap)
    (inst : Instruction) :
    FileMap.Fits cwd (assignFileId cwd fileMap inst).1 ∧
      FileMap.paths (assignFileId cwd fileMap inst).1 =
        add (FileMap.paths fileMap) (inst.resolved cwd) ∧
      (assignFileId cwd fileMap inst).2 =
        inst.withNumber cwd
          (FileMap.paths (assignFileId cwd fileMap inst).1) := by
  unfold assignFileId
  dsimp only
  split
  · rename_i unknown
    have absent : inst.resolved cwd ∉ FileMap.paths fileMap := by
      rw [List.lookup_eq_none_iff] at unknown
      intro isPath
      obtain ⟨entry, isEntry, same⟩ := List.mem_map.mp isPath
      have other := unknown entry isEntry
      rw [same] at other
      simp [Instruction.resolved] at other
    have paths : FileMap.paths (fileMap ++ [(pathResolve cwd inst.directory
        inst.filename, ⟨fileMap.length, inst.directory, inst.filename,
          none⟩)]) = add (FileMap.paths fileMap) (inst.resolved cwd) := by
      rw [add, if_neg absent]
      simp [FileMap.paths, Instruction.resolved]
    refine ⟨⟨?_, ?_⟩, paths, ?_⟩
    · rw [paths]
      exact nodup_add fits.distinct _
    · intro place path file isEntry
      rcases Nat.lt_trichotomy place fileMap.length with less | rfl | greater
      · rw [List.getElem?_append_left less] at isEntry
        exact fits.entries place path file isEntry
      · rw [List.getElem?_append_right (Nat.le_refl _), Nat.sub_self]
          at isEntry
        obtain ⟨rfl, rfl⟩ := Prod.mk.inj (Option.some.inj isEntry)
        exact ⟨rfl, rfl⟩
      · rw [List.getElem?_eq_none (by simp; omega)] at isEntry
        cases isEntry
    · rw [Instruction.withNumber, paths, add, if_neg absent,
        List.idxOf_append_of_notMem absent]
      simp [FileMap.paths]
  · rename_i file found
    obtain ⟨before, after, split_, others⟩ := List.lookup_eq_some_iff.mp found
    have known : inst.resolved cwd ∈ FileMap.paths fileMap := by
      rw [split_]
      simp [FileMap.paths, Instruction.resolved]
    have absent : inst.resolved cwd ∉ before.map Prod.fst := by
      intro isPath
      obtain ⟨entry, isEntry, same⟩ := List.mem_map.mp isPath
      have other := others entry isEntry
      rw [same] at other
      simp [Instruction.resolved] at other
    have place : (FileMap.paths fileMap).idxOf (inst.resolved cwd) =
        before.length := by
      rw [FileMap.paths, split_, List.map_append, List.idxOf_append_of_notMem absent]
      simp [Instruction.resolved]
    have id : file.id = before.length := by
      apply (fits.entries before.length _ file _).1
      · exact inst.resolved cwd
      · rw [split_, List.getElem?_append_right (Nat.le_refl _), Nat.sub_self]
        rfl
    refine ⟨fits, ?_, ?_⟩
    · rw [add, if_pos known]
    · rw [Instruction.withNumber, place, id]

theorem assignFileIds_spec {cwd : String} (fits : FileMap.Fits cwd fileMap)
    (insts : List Instruction) :
    FileMap.Fits cwd (assignFileIds cwd fileMap insts).1 ∧
      FileMap.paths (assignFileIds cwd fileMap insts).1 =
        addAll (FileMap.paths fileMap)
          (insts.map (Instruction.resolved cwd)) ∧
      (assignFileIds cwd fileMap insts).2 =
        insts.map (Instruction.withNumber cwd
          (FileMap.paths (assignFileIds cwd fileMap insts).1)) := by
  induction insts generalizing fileMap with
  | nil => exact ⟨fits, rfl, rfl⟩
  | cons inst insts induction =>
      obtain ⟨firstFits, firstPaths, first⟩ := assignFileId_spec fits inst
      obtain ⟨restFits, restPaths, rest⟩ := induction firstFits
      have known : inst.resolved cwd ∈
          FileMap.paths (assignFileId cwd fileMap inst).1 := by
        rw [firstPaths, mem_add]
        exact .inr rfl
      have grows : FileMap.paths (assignFileId cwd fileMap inst).1 <+:
          FileMap.paths (assignFileIds cwd fileMap (inst :: insts)).1 := by
        show _ <+: FileMap.paths
          (assignFileIds cwd (assignFileId cwd fileMap inst).1 insts).1
        rw [restPaths]
        exact prefix_addAll _ _
      refine ⟨restFits, ?_, ?_⟩
      · show FileMap.paths
          (assignFileIds cwd (assignFileId cwd fileMap inst).1 insts).1 = _
        rw [restPaths, firstPaths]
        rfl
      · show (assignFileId cwd fileMap inst).2 ::
          (assignFileIds cwd (assignFileId cwd fileMap inst).1 insts).2 = _
        rw [List.map_cons, Instruction.withNumber_of_grows grows known, first, rest]
        rfl

def BasicBlock.withNumbers (cwd : String) (paths : List String)
    (block : BasicBlock) : BasicBlock :=
  { block with
    instructions := block.instructions.map
      (Instruction.withNumber cwd paths) }

theorem assignBlocks_spec {cwd : String} (fits : FileMap.Fits cwd fileMap)
    (blocks : List BasicBlock) :
    FileMap.Fits cwd (assignBlocks cwd fileMap blocks).1 ∧
      FileMap.paths (assignBlocks cwd fileMap blocks).1 =
        addAll (FileMap.paths fileMap)
          ((blocks.flatMap BasicBlock.instructions).map (Instruction.resolved cwd)) ∧
      (assignBlocks cwd fileMap blocks).2 =
        blocks.map (BasicBlock.withNumbers cwd
          (FileMap.paths (assignBlocks cwd fileMap blocks).1)) := by
  induction blocks generalizing fileMap with
  | nil => exact ⟨fits, rfl, rfl⟩
  | cons block blocks induction =>
      obtain ⟨firstFits, firstPaths, first⟩ :=
        assignFileIds_spec fits block.instructions
      obtain ⟨restFits, restPaths, rest⟩ := induction firstFits
      have paths : FileMap.paths
          (assignBlocks cwd fileMap (block :: blocks)).1 =
          FileMap.paths (assignBlocks cwd
            (assignFileIds cwd fileMap block.instructions).1 blocks).1 := rfl
      have grows : FileMap.paths
          (assignFileIds cwd fileMap block.instructions).1 <+:
          FileMap.paths (assignBlocks cwd fileMap (block :: blocks)).1 := by
        rw [paths, restPaths]
        exact prefix_addAll _ _
      have numbered : block.instructions.map (Instruction.withNumber cwd
          (FileMap.paths (assignBlocks cwd fileMap (block :: blocks)).1)) =
          (assignFileIds cwd fileMap block.instructions).2 := by
        rw [first]
        apply List.map_congr_left
        intro inst isInst
        apply Instruction.withNumber_of_grows grows
        rw [firstPaths, mem_addAll]
        exact .inr (List.mem_map_of_mem isInst)
      refine ⟨restFits, ?_, ?_⟩
      · rw [paths, restPaths, firstPaths, List.flatMap_cons, List.map_append,
          addAll_append]
      · rw [List.map_cons, BasicBlock.withNumbers, numbered, paths, ← rest]
        rfl

theorem Profile.instructions_filterFiles (profile : Profile) :
    (filterFiles profile).instructions = profile.instructions.filter passesFilter := by
  unfold Profile.instructions filterFiles
  rw [List.filter_flatMap, List.flatMap_map]

theorem FileMap.Fits.nil (cwd : String) : FileMap.Fits cwd [] where
  distinct := List.nodup_nil
  entries place path file isEntry := by simp at isEntry

def profileFiles (cwd : String) (profile : Profile) : FileMap :=
  (assignBlocks cwd [] (filterFiles profile).basicBlocks).1

theorem paths_profileFiles (cwd : String) (profile : Profile) :
    FileMap.paths (profileFiles cwd profile) = keptFiles cwd profile := by
  have paths := (assignBlocks_spec (FileMap.Fits.nil cwd)
    (filterFiles profile).basicBlocks).2.1
  have kept := profile.instructions_filterFiles
  unfold Profile.instructions at kept
  rw [kept] at paths
  exact paths

theorem rewriteProfile_eq (cwd : String) (readFile : String → Option String)
    (profile : Profile) :
    rewriteProfile cwd readFile profile =
      { profile with
        basicBlocks := (filterFiles profile).basicBlocks.map
          (BasicBlock.withNumbers cwd (keptFiles cwd profile))
        files := profile.files.or
          (some (readSources readFile (profileFiles cwd profile))) } := by
  have blocks := (assignBlocks_spec (FileMap.Fits.nil cwd)
    (filterFiles profile).basicBlocks).2.2
  have paths := paths_profileFiles cwd profile
  unfold profileFiles at paths
  rw [paths] at blocks
  unfold rewriteProfile profileFiles
  dsimp only
  rw [blocks]
  rfl

section Correct

variable (cwd : String) (readFile : String → Option String)
  (profile : Profile)

theorem instructions_rewriteProfile :
    (rewriteProfile cwd readFile profile).instructions =
      (profile.instructions.filter passesFilter).map
        (Instruction.withNumber cwd (keptFiles cwd profile)) := by
  rw [rewriteProfile_eq, ← profile.instructions_filterFiles]
  unfold Profile.instructions
  rw [List.flatMap_map, List.map_flatMap]
  rfl

theorem mem_keptFiles (path : String) :
    path ∈ keptFiles cwd profile ↔
      ∃ inst ∈ profile.instructions.filter passesFilter, inst.resolved cwd = path := by
  rw [keptFiles, mem_addAll, List.mem_map]
  simp

theorem nodup_keptFiles : (keptFiles cwd profile).Nodup :=
  nodup_addAll List.nodup_nil _

theorem numbered_iff (path : String) (id : Nat) :
    (∃ inst ∈ (rewriteProfile cwd readFile profile).instructions,
      inst.fileId = some id ∧ inst.resolved cwd = path) ↔
      (keptFiles cwd profile)[id]? = some path := by
  rw [instructions_rewriteProfile]
  constructor
  · rintro ⟨_, isInst, number, rfl⟩
    obtain ⟨inst, kept, rfl⟩ := List.mem_map.mp isInst
    have known : inst.resolved cwd ∈ keptFiles cwd profile :=
      (mem_keptFiles cwd profile _).mpr ⟨inst, kept, rfl⟩
    obtain rfl := Option.some.inj number
    exact List.getElem?_idxOf known
  · intro at_
    obtain ⟨inside, rfl⟩ := List.getElem?_eq_some_iff.mp at_
    obtain ⟨inst, kept, path⟩ :=
      (mem_keptFiles cwd profile _).mp (List.getElem_mem inside)
    refine ⟨_, List.mem_map_of_mem kept, ?_, path⟩
    rw [Instruction.withNumber, path,
      (nodup_keptFiles cwd profile).idxOf_getElem id inside]

/-- An instruction of the new profile has a number below the number of
files. -/
theorem numbered {inst : Instruction}
    (isInst : inst ∈ (rewriteProfile cwd readFile profile).instructions) :
    ∃ id, inst.fileId = some id ∧
      (keptFiles cwd profile)[id]? = some (inst.resolved cwd) := by
  have number : ∃ id, inst.fileId = some id := by
    rw [instructions_rewriteProfile] at isInst
    obtain ⟨inst, kept, rfl⟩ := List.mem_map.mp isInst
    exact ⟨_, rfl⟩
  obtain ⟨id, number⟩ := number
  exact ⟨id, number, (numbered_iff cwd readFile profile _ id).mp
    ⟨inst, isInst, number, rfl⟩⟩

theorem listsFiles_readSources :
    ListsFiles cwd (readSources readFile (profileFiles cwd profile))
      (keptFiles cwd profile) := by
  have fits : FileMap.Fits cwd (profileFiles cwd profile) :=
    (assignBlocks_spec (FileMap.Fits.nil cwd) _).1
  intro id path at_
  rw [← paths_profileFiles, FileMap.paths, List.getElem?_map] at at_
  obtain ⟨⟨path', file⟩, entry, rfl⟩ := Option.map_eq_some_iff.mp at_
  constructor
  · refine ⟨{ file with source := readFile path' }, ?_,
      (fits.entries id path' file entry).1⟩
    exact List.mem_map.mpr ⟨_, List.mem_of_getElem? entry, rfl⟩
  · intro listed isListed sameId
    obtain ⟨⟨other, otherFile⟩, isEntry, rfl⟩ := List.mem_map.mp isListed
    obtain ⟨place, inside, atPlace⟩ := List.mem_iff_getElem.mp isEntry
    have otherEntry : (profileFiles cwd profile)[place]? =
        some (other, otherFile) := by
      rw [List.getElem?_eq_getElem inside, atPlace]
    obtain ⟨otherId, otherPath⟩ := fits.entries place other otherFile otherEntry
    obtain rfl : place = id := otherId.symm.trans sameId
    rw [entry] at otherEntry
    obtain ⟨rfl, rfl⟩ := Prod.mk.inj (Option.some.inj otherEntry)
    exact otherPath

/-- A table lists the kept files when every instruction of the new profile
finds its own there. -/
theorem listsFiles_iff (files : List File) :
    ListsFiles cwd files (keptFiles cwd profile) ↔
      ∀ inst ∈ (rewriteProfile cwd readFile profile).instructions,
        ∀ id, inst.fileId = some id →
          (∃ file ∈ files, file.id = id) ∧
            ∀ file ∈ files, file.id = id → file.resolved cwd = inst.resolved cwd := by
  constructor
  · intro lists inst isInst id number
    exact lists id _ ((numbered_iff cwd readFile profile _ id).mp
      ⟨inst, isInst, number, rfl⟩)
  · intro finds id path at_
    obtain ⟨inst, isInst, number, rfl⟩ :=
      (numbered_iff cwd readFile profile path id).mpr at_
    exact finds inst isInst id number

theorem kept_rewriteProfile :
    (rewriteProfile cwd readFile profile).basicBlocks.map
        BasicBlock.withoutFileIds =
      profile.basicBlocks.map fun block =>
        { block with
          instructions := block.instructions.filter
            passesFilter }.withoutFileIds := by
  rw [rewriteProfile_eq]
  dsimp only [filterFiles]
  rw [List.map_map, List.map_map]
  apply List.map_congr_left
  intro block _
  simp [BasicBlock.withoutFileIds, BasicBlock.withNumbers, Instruction.withNumber]

end Correct

/-- The table of files a profile carries, if any, is the one its instructions
need. -/
def CarriesOwnTable (cwd : String) (profile : Profile) : Prop :=
  ∀ files, profile.files = some files → ListsFiles cwd files (keptFiles cwd profile)

/-- A profile is rewritten as it should be if and only if it has no table of
files, or has the right one already. -/
theorem rewriteProfile_correct_iff (cwd : String)
    (readFile : String → Option String) (profile : Profile) :
    RewriteCorrect cwd profile (rewriteProfile cwd readFile profile) ↔
      CarriesOwnTable cwd profile := by
  have files : (rewriteProfile cwd readFile profile).files =
      profile.files.or
        (some (readSources readFile (profileFiles cwd profile))) := by
    rw [rewriteProfile_eq]
  constructor
  · intro correct carried carries
    obtain ⟨table, isTable, finds⟩ := correct.listed
    rw [files, carries] at isTable
    obtain rfl := Option.some.inj isTable
    exact (listsFiles_iff cwd readFile profile carried).mpr finds
  · intro carries
    constructor
    · exact kept_rewriteProfile cwd readFile profile
    · intro inst isInst
      obtain ⟨id, number, _⟩ := numbered cwd readFile profile isInst
      rw [number]
      exact Option.some_ne_none id
    · intro inst isInst id number smaller less
      have at_ := (numbered_iff cwd readFile profile _ id).mp
        ⟨inst, isInst, number, rfl⟩
      obtain ⟨inside, _⟩ := List.getElem?_eq_some_iff.mp at_
      obtain ⟨other, isOther, otherNumber, _⟩ :=
        (numbered_iff cwd readFile profile _ smaller).mpr
          (List.getElem?_eq_getElem (Nat.lt_trans less inside))
      exact ⟨other, isOther, otherNumber⟩
    · intro first isFirst second isSecond
      obtain ⟨firstId, firstNumber, firstAt⟩ := numbered cwd readFile profile isFirst
      obtain ⟨secondId, secondNumber, secondAt⟩ :=
        numbered cwd readFile profile isSecond
      rw [firstNumber, secondNumber, Option.some.injEq]
      constructor
      · rintro rfl
        exact Option.some.inj (firstAt.symm.trans secondAt)
      · intro same
        rw [same] at firstAt
        obtain ⟨inside, _⟩ := List.getElem?_eq_some_iff.mp firstAt
        exact (List.getElem?_inj inside (nodup_keptFiles cwd profile)).mp
          (firstAt.trans secondAt.symm)
    · rw [files]
      cases own : profile.files with
      | some table =>
          exact ⟨table, rfl, (listsFiles_iff cwd readFile profile table).mp
            (carries table own)⟩
      | none =>
          exact ⟨_, rfl, (listsFiles_iff cwd readFile profile _).mp
            (listsFiles_readSources cwd readFile profile)⟩
    · rw [rewriteProfile_eq]

/-- A rewritten profile stays as it is when it is rewritten again. -/
theorem rewriteProfile_twice (cwd : String) (readFile again : String → Option String)
    (profile : Profile) :
    rewriteProfile cwd again (rewriteProfile cwd readFile profile) =
      rewriteProfile cwd readFile profile := by
  let number := Instruction.withNumber cwd (keptFiles cwd profile)
  have filtered : ∀ insts : List Instruction,
      (((insts.filter passesFilter).map number).filter passesFilter) =
        (insts.filter passesFilter).map number := by
    intro insts
    have passes : passesFilter ∘ number = passesFilter := rfl
    rw [List.filter_map, passes, List.filter_filter]
    simp only [Bool.and_self]
  have sameFiles : keptFiles cwd (rewriteProfile cwd readFile profile) =
      keptFiles cwd profile := by
    have resolves : Instruction.resolved cwd ∘ number = Instruction.resolved cwd := rfl
    rw [keptFiles, instructions_rewriteProfile, filtered, List.map_map, resolves]
    rfl
  have blocks : (filterFiles (rewriteProfile cwd readFile profile)).basicBlocks.map
      (BasicBlock.withNumbers cwd (keptFiles cwd profile)) =
        (rewriteProfile cwd readFile profile).basicBlocks := by
    have twice : number ∘ number = number := rfl
    rw [rewriteProfile_eq]
    simp only [filterFiles, List.map_map]
    apply List.map_congr_left
    intro block _
    have numbered := congrArg (List.map number) (filtered block.instructions)
    rw [List.map_map, twice] at numbered
    exact congrArg (fun instructions => { block with instructions }) numbered
  have files : (rewriteProfile cwd readFile profile).files ≠ none := by
    rw [rewriteProfile_eq]
    cases profile.files <;> exact Option.some_ne_none _
  obtain ⟨table, carried⟩ := Option.ne_none_iff_exists'.mp files
  rw [rewriteProfile_eq cwd again, sameFiles, blocks, carried, Option.some_or, ← carried]

/-- Two spellings of one file, as long as the profile belongs to the directory
`/a`. -/
def twoSpellings : Profile where
  files := none
  basicBlocks :=
    [{ id := 1
       instructions := [⟨"src", "x.c", 1, none, []⟩, ⟨"/a/src", "x.c", 2, none, []⟩]
       others := [] }]
  others := []

/-- The profile after its rewriting in `/a`, with a table of one file. -/
def movedProfile : Profile := rewriteProfile "/a" (fun _ => none) twoSpellings

/-- Rewritten again after it was moved to `/b`, the profile numbers two files
and lists one. -/
theorem rewriteProfile_fails_for_movedProfile :
    ¬ RewriteCorrect "/b" movedProfile
      (rewriteProfile "/b" (fun _ => none) movedProfile) := by
  intro correct
  have files : (rewriteProfile "/b" (fun _ => none) movedProfile).files =
      some [⟨0, "src", "x.c", none⟩] := by decide
  have second : ⟨"/a/src", "x.c", 2, some 1, []⟩ ∈
      (rewriteProfile "/b" (fun _ => none) movedProfile).instructions := by
    decide
  obtain ⟨table, isTable, finds⟩ := correct.listed
  rw [files] at isTable
  obtain rfl := Option.some.inj isTable
  exact absurd (finds _ second 1 rfl).1 (by decide)

end AFLPlusPlus.Viewer
