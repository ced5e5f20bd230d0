import AFLPlusPlus.Config
import Mathlib.Data.List.Infix

/-!
# Import from foreign queues

`read_foreign_testcases` scans the directories given with `-F` in every round
of syncing.  All it remembers between two rounds is one modification time per
directory, the watermark: files not younger than it are taken for known.
-/

namespace AFLPlusPlus

abbrev CString := List Char

/-- A directory entry with what `lstat` and the later calls say about it. -/
structure DirEntry where
  dName : CString
  /-- `lstat` and `access` succeed -/
  accessible : Bool
  /-- `st_mtime`, in seconds -/
  mtime : Int
  /-- `S_ISREG(st_mode)` -/
  regular : Bool
  /-- `st_size` -/
  size : Nat
  /-- `open` and `mmap` succeed -/
  mapped : Bool
  deriving DecidableEq

/-- `struct foreign_sync` -/
structure ForeignSync where
  dir : CString
  mtime : Int

def readmeName : CString := ['/', 'R', 'E', 'A', 'D', 'M', 'E', '.', 't', 'x', 't']

/-- `fn2` -/
def DirEntry.path (dir : CString) (entry : DirEntry) : CString :=
  dir ++ '/' :: entry.dName

/-- `strstr(fn2, "/README.txt")` -/
def DirEntry.isReadme (dir : CString) (entry : DirEntry) : Bool :=
  decide (readmeName <:+: entry.path dir)

/-- One entry of the scan, with `mtime_max` and the files that were executed
and offered to `save_if_interesting` so far. -/
def scanEntry (sync : ForeignSync) (state : Int × List DirEntry)
    (entry : DirEntry) : Int × List DirEntry :=
  if entry.accessible = false then state
  else if entry.mtime ≤ sync.mtime then state
  else if entry.regular = false ∨ entry.size = 0 ∨ entry.isReadme sync.dir = true then
    state
  else if maxFile < entry.size then state
  else if entry.mapped = false then state
  else
    (if state.1 < entry.mtime then entry.mtime else state.1, state.2 ++ [entry])

/-- The scan of one directory; `scandir` may fail or find nothing. -/
def scanForeignSync (sync : ForeignSync) (scandir : Option (List DirEntry)) :
    ForeignSync × List DirEntry :=
  if sync.dir = [] then (sync, [])
  else
    match scandir with
    | none => (sync, [])
    | some [] => (sync, [])
    | some nl =>
        let scan := nl.foldl (scanEntry sync) (0, [])
        ({ sync with mtime := scan.1 }, scan.2)

/-- `read_foreign_testcases(afl, 0)`, the call made while syncing: the updated
watermarks and, directory by directory, the imported files. -/
def readForeignTestcases (foreignSyncs : List ForeignSync)
    (scandir : Nat → Option (List DirEntry)) :
    List ForeignSync × List (List DirEntry) :=
  let scans := foreignSyncs.zipIdx.map fun sync =>
    scanForeignSync sync.1 (scandir sync.2)
  (scans.map Prod.fst, scans.map Prod.snd)

/-- The files put into a directory since the previous round, and what the round
finds there. -/
structure Arrival where
  added : List DirEntry
  listing : List DirEntry

/-- The files the import is meant for. -/
structure Admissible (entry : DirEntry) : Prop where
  accessible : entry.accessible = true
  regular : entry.regular = true
  nonempty : entry.size ≠ 0
  bounded : entry.size ≤ maxFile
  mapped : entry.mapped = true

/-- New files arrive and none vanishes: the regular files each round finds are
those seen before and the added ones. -/
def Arrivals : List DirEntry → List Arrival → Prop
  | _, [] => True
  | seen, arrival :: later =>
      (∀ entry ∈ arrival.added, Admissible entry ∧ entry ∉ seen) ∧
        (∀ entry, (entry ∈ arrival.listing ∧ entry.regular = true) ↔
          entry ∈ seen ++ arrival.added) ∧
        Arrivals (seen ++ arrival.added) later

/-- The rounds of one directory: the imports of each. -/
def directoryRun : ForeignSync → List Arrival → List (List DirEntry)
  | _, [] => []
  | sync, arrival :: later =>
      let scan := scanForeignSync sync (some arrival.listing)
      scan.2 :: directoryRun scan.1 later

/-- The rounds of all directories: the imports of each, by directory. -/
def foreignRun : List ForeignSync → List (Nat → Arrival) → List (List (List DirEntry))
  | _, [] => []
  | syncs, round :: later =>
      let result := readForeignTestcases syncs fun iter =>
        some (round iter).listing
      result.2 :: foreignRun result.1 later

/-- The directories of the `-F` options before the first round. -/
def startSyncs (dirs : List CString) : List ForeignSync :=
  dirs.map fun dir => { dir, mtime := 0 }

/-- What a run imported from one of the directories. -/
def importsOf (iter : Nat) (run : List (List (List DirEntry))) :
    List (List DirEntry) :=
  run.map fun imports => imports.getD iter []

/-- The number of rounds that import a file. -/
def importCount (entry : DirEntry) (rounds : List (List DirEntry)) : Nat :=
  rounds.countP fun imports => decide (entry ∈ imports)

/-- A file which the scan takes at a given watermark. -/
def Takes (sync : ForeignSync) (entry : DirEntry) : Prop :=
  sync.mtime < entry.mtime ∧ Admissible entry ∧ entry.isReadme sync.dir = false

variable {arrival : Arrival} {entry : DirEntry} {sync : ForeignSync}
    {later : List Arrival} {seen : List DirEntry}

theorem scanEntry_of_takes (takes : Takes sync entry) (state : Int × List DirEntry) :
    scanEntry sync state entry = (max state.1 entry.mtime, state.2 ++ [entry]) := by
  obtain ⟨younger, admissible, notReadme⟩ := takes
  have large : ¬maxFile < entry.size := Nat.not_lt.mpr admissible.bounded
  have old : ¬entry.mtime ≤ sync.mtime := Int.not_le.mpr younger
  simp only [scanEntry, admissible.accessible, admissible.regular,
    admissible.nonempty, admissible.mapped, notReadme, large, old, if_false,
    Bool.true_eq_false, Bool.false_eq_true, or_self]
  congr 1
  split <;> omega

theorem scanEntry_of_not_takes (skips : ¬Takes sync entry) (state : Int × List DirEntry) :
    scanEntry sync state entry = state := by
  unfold scanEntry
  split
  · rfl
  split
  · rfl
  split
  · rfl
  split
  · rfl
  split
  · rfl
  rename_i accessible young acceptable bounded mapped
  refine absurd ⟨Int.not_le.mp young, ?_, ?_⟩ skips
  · constructor <;> grind
  · grind

/-- What a scan leaves behind: the imports are the files it takes, and the new
watermark is 0 or the time of the youngest of them. -/
structure Imported (sync : ForeignSync) (entries : List DirEntry)
    (state : Int × List DirEntry) : Prop where
  taken : ∀ entry, entry ∈ state.2 ↔ entry ∈ entries ∧ Takes sync entry
  nonnegative : 0 ≤ state.1
  upper : ∀ entry ∈ state.2, entry.mtime ≤ state.1
  attained : state.1 = 0 ∨ ∃ entry ∈ state.2, entry.mtime = state.1

theorem scan_imported (sync : ForeignSync) (entries : List DirEntry) :
    Imported sync entries (entries.foldl (scanEntry sync) (0, [])) := by
  have loop : ∀ later earlier state, Imported sync earlier state →
      Imported sync (earlier ++ later) (later.foldl (scanEntry sync) state) := by
    intro later
    induction later with
    | nil =>
        intro earlier state imported
        simpa using imported
    | cons entry later induction =>
        intro earlier state imported
        obtain ⟨taken, nonnegative, upper, attained⟩ := imported
        rw [List.append_cons]
        apply induction
        by_cases takes : Takes sync entry
        · rw [scanEntry_of_takes takes]
          refine ⟨?_, ?_, ?_, ?_⟩
          · grind
          · exact Int.le_trans nonnegative (Int.le_max_left _ _)
          · grind
          · grind
        · rw [scanEntry_of_not_takes takes]
          refine ⟨?_, nonnegative, upper, attained⟩
          grind
  have start : Imported sync [] (0, []) := by
    refine ⟨?_, Int.le_refl 0, ?_, .inl rfl⟩ <;> simp
  simpa using loop entries [] (0, []) start

theorem scanForeignSync_imported (sync : ForeignSync) (named : sync.dir ≠ [])
    {entries : List DirEntry} (nonempty : entries ≠ []) :
    (scanForeignSync sync (some entries)).1.dir = sync.dir ∧
      Imported sync entries
        ((scanForeignSync sync (some entries)).1.mtime,
          (scanForeignSync sync (some entries)).2) := by
  cases entries with
  | nil => exact absurd rfl nonempty
  | cons entry entries =>
      unfold scanForeignSync
      rw [if_neg named]
      exact ⟨rfl, scan_imported sync (entry :: entries)⟩

section Directory

variable {dir : CString}

/-- The files of a round are younger than everything seen before, and only the
last round may find nothing new in a directory that had files. -/
def KeepsUp (dir : CString) : List DirEntry → List Arrival → Prop
  | _, [] => True
  | seen, arrival :: later =>
      (∀ entry ∈ arrival.added, entry.isReadme dir = false ∧
        0 < entry.mtime ∧ ∀ old ∈ seen, old.mtime < entry.mtime) ∧
      (later ≠ [] → arrival.added = [] → seen = []) ∧
      KeepsUp dir (seen ++ arrival.added) later

/-- What the rounds so far leave: the watermark is the time of the youngest
file seen, or 0 when there is none. -/
structure Watermark (sync : ForeignSync) (dir : CString)
    (seen : List DirEntry) : Prop where
  same : sync.dir = dir
  upper : ∀ entry ∈ seen, entry.mtime ≤ sync.mtime
  attained : (sync.mtime = 0 ∧ seen = []) ∨ ∃ entry ∈ seen, entry.mtime = sync.mtime
  importable : ∀ entry ∈ seen, Admissible entry ∧
    entry.isReadme dir = false ∧ 0 < entry.mtime

/-- A file older than another one is never imported without it. -/
theorem importCount_mono (named : dir ≠ []) {older younger : DirEntry}
    (order : older.mtime ≤ younger.mtime) (admissible : Admissible younger)
    (notReadme : younger.isReadme dir = false) :
    ∀ (arrivals : List Arrival) (sync : ForeignSync) (seen : List DirEntry),
      sync.dir = dir → younger ∈ seen → Arrivals seen arrivals →
      importCount older (directoryRun sync arrivals) ≤
        importCount younger (directoryRun sync arrivals) := by
  intro arrivals
  induction arrivals with
  | nil => intro _ _ _ _ _; exact Nat.le_refl _
  | cons arrival later induction =>
      intro sync seen same member arrives
      obtain ⟨_, listed, arrivesLater⟩ := arrives
      have found : younger ∈ arrival.listing :=
        ((listed younger).mpr (List.mem_append_left _ member)).1
      obtain ⟨sameAfter, imported⟩ := scanForeignSync_imported
        sync (by rw [same]; exact named)
        (List.ne_nil_of_mem found)
      have rest := induction (scanForeignSync sync (some arrival.listing)).1
        (seen ++ arrival.added) (sameAfter.trans same)
        (List.mem_append_left _ member) arrivesLater
      have together : older ∈ (scanForeignSync sync (some arrival.listing)).2 →
          younger ∈ (scanForeignSync sync (some arrival.listing)).2 := by
        intro olderTaken
        obtain ⟨_, younger_than, _⟩ := (imported.taken older).mp olderTaken
        exact (imported.taken younger).mpr
          ⟨found, by omega, admissible, by rw [same]; exact notReadme⟩
      simp only [directoryRun, importCount, List.countP_cons] at rest ⊢
      grind

theorem arrivals_not_seen :
    ∀ (arrivals : List Arrival) (seen : List DirEntry), Arrivals seen arrivals →
      ∀ arrival ∈ arrivals, ∀ entry ∈ arrival.added, entry ∉ seen := by
  intro arrivals
  induction arrivals with
  | nil => intro _ _ arrival member; cases member
  | cons first later induction =>
      rintro seen ⟨fresh, _, arrives⟩ arrival member entry added
      rcases List.mem_cons.mp member with rfl | inLater
      · exact (fresh entry added).2
      · intro inSeen
        exact induction (seen ++ first.added) arrives arrival inLater entry
          added (List.mem_append_left _ inSeen)

theorem directoryRun_imports (named : dir ≠ []) :
    ∀ (arrivals : List Arrival) (sync : ForeignSync), sync.dir = dir →
      0 ≤ sync.mtime → ∀ imports ∈ directoryRun sync arrivals,
        ∀ entry ∈ imports, entry.isReadme dir = false ∧ 0 < entry.mtime := by
  intro arrivals
  induction arrivals with
  | nil => intro _ _ _ imports member; cases member
  | cons arrival later induction =>
      intro sync same nonnegative imports member entry inside
      by_cases empty : arrival.listing = []
      · have scan : scanForeignSync sync (some arrival.listing) = (sync, []) := by
          rw [empty, scanForeignSync]
          split <;> rfl
        rw [directoryRun, scan] at member
        rcases List.mem_cons.mp member with rfl | inLater
        · cases inside
        · exact induction sync same nonnegative imports inLater entry inside
      · obtain ⟨sameAfter, imported⟩ := scanForeignSync_imported
          sync (by rw [same]; exact named) empty
        rcases List.mem_cons.mp member with rfl | inLater
        · obtain ⟨_, younger, _, notReadme⟩ := (imported.taken entry).mp inside
          rw [same] at notReadme
          exact ⟨notReadme, by omega⟩
        · exact induction _ (sameAfter.trans same) imported.nonnegative
            imports inLater entry inside

theorem importCount_cons (entry : DirEntry) (sync : ForeignSync)
    (arrival : Arrival) (later : List Arrival) :
    importCount entry (directoryRun sync (arrival :: later)) =
      importCount entry (directoryRun
        (scanForeignSync sync (some arrival.listing)).1 later) +
      if entry ∈ (scanForeignSync sync (some arrival.listing)).2 then 1
      else 0 := by
  simp [importCount, directoryRun, List.countP_cons]

section

variable (named : dir ≠ []) (watermark : Watermark sync dir seen)
    (arrives : Arrivals seen (arrival :: later))
include named watermark arrives

/-- A round whose new files are younger than everything seen imports exactly
these. -/
theorem taken_iff_added (fresh : ∀ entry ∈ arrival.added, entry.isReadme dir = false ∧
      0 < entry.mtime ∧ ∀ old ∈ seen, old.mtime < entry.mtime) (entry : DirEntry) :
    entry ∈ (scanForeignSync sync (some arrival.listing)).2 ↔
      entry ∈ arrival.added := by
  obtain ⟨added, listed, _⟩ := arrives
  have member := listed entry
  by_cases empty : arrival.listing = []
  · have scan : (scanForeignSync sync (some arrival.listing)).2 = [] := by
      rw [empty, scanForeignSync]
      split <;> rfl
    rw [scan]
    grind
  · obtain ⟨_, imported⟩ := scanForeignSync_imported
      sync (by rw [watermark.same]; exact named) empty
    rw [imported.taken]
    constructor
    · rintro ⟨found, younger, admissible, _⟩
      rcases List.mem_append.mp (member.mp ⟨found, admissible.regular⟩) with
        inSeen | inAdded
      · have upper := watermark.upper entry inSeen
        omega
      · exact inAdded
    · intro inAdded
      obtain ⟨notReadme, positive, younger⟩ := fresh entry inAdded
      refine ⟨(member.mpr (List.mem_append_right _ inAdded)).1, ?_,
        (added entry inAdded).1, by rw [watermark.same]; exact notReadme⟩
      rcases watermark.attained with ⟨zero, _⟩ | ⟨old, inSeen, time⟩
      · omega
      · have order := younger old inSeen
        omega

/-- Such a round keeps the watermark, if it finds something new in a directory
that had files. -/
theorem watermark_step (fresh : ∀ entry ∈ arrival.added, entry.isReadme dir = false ∧
      0 < entry.mtime ∧ ∀ old ∈ seen, old.mtime < entry.mtime)
    (progress : arrival.added = [] → seen = []) :
    Watermark (scanForeignSync sync (some arrival.listing)).1 dir
      (seen ++ arrival.added) := by
  have taken := taken_iff_added named watermark arrives fresh
  obtain ⟨added, listed, _⟩ := arrives
  have importable : ∀ entry ∈ seen ++ arrival.added, Admissible entry ∧
      entry.isReadme dir = false ∧ 0 < entry.mtime := by
    intro entry member
    rcases List.mem_append.mp member with inSeen | inAdded
    · exact watermark.importable entry inSeen
    · exact ⟨(added entry inAdded).1, (fresh entry inAdded).1,
        (fresh entry inAdded).2.1⟩
  by_cases empty : arrival.listing = []
  · have none : seen ++ arrival.added = [] := by
      rw [List.eq_nil_iff_forall_not_mem]
      intro entry member
      have found := ((listed entry).mpr member).1
      rw [empty] at found
      cases found
    have scan : (scanForeignSync sync (some arrival.listing)).1 = sync := by
      rw [empty, scanForeignSync]
      split <;> rfl
    obtain ⟨noSeen, noAdded⟩ := List.append_eq_nil_iff.mp none
    rw [scan, noAdded, List.append_nil]
    exact watermark
  · obtain ⟨sameAfter, imported⟩ := scanForeignSync_imported
      sync (by rw [watermark.same]; exact named) empty
    have upper := imported.upper
    have attained := imported.attained
    simp only [taken] at upper attained
    by_cases nothing : arrival.added = []
    · have noSeen := progress nothing
      rw [nothing] at attained ⊢
      refine ⟨sameAfter.trans watermark.same, ?_, .inl ⟨?_, ?_⟩, ?_⟩
      · simp [noSeen]
      · simpa using attained
      · simp [noSeen]
      · simp [noSeen]
    · obtain ⟨first, inAdded⟩ := List.exists_mem_of_ne_nil _ nothing
      have positive := (fresh first inAdded).2.1
      have reached := upper first inAdded
      refine ⟨sameAfter.trans watermark.same, ?_, .inr ?_, importable⟩
      · intro entry member
        rcases List.mem_append.mp member with inSeen | isAdded
        · have older := (fresh first inAdded).2.2 entry inSeen
          omega
        · exact upper entry isAdded
      · rcases attained with zero | ⟨entry, isAdded, time⟩
        · omega
        · exact ⟨entry, List.mem_append_right _ isAdded, time⟩

end

theorem importCount_eq_zero {rounds : List (List DirEntry)}
    (never : ∀ imports ∈ rounds, entry ∉ imports) :
    importCount entry rounds = 0 := by
  rw [importCount, List.countP_eq_zero]
  intro imports member
  simpa using never imports member

/-- Files that are imported exactly once, while the files seen before are not
imported again, are younger than these. -/
theorem fresh_of_once (named : dir ≠ []) {arrivals : List Arrival}
    (watermark : Watermark sync dir seen) (arrives : Arrivals seen arrivals)
    (never : ∀ entry ∈ seen, importCount entry (directoryRun sync arrivals) = 0)
    (once : importCount entry (directoryRun sync arrivals) = 1) :
    entry.isReadme dir = false ∧ 0 < entry.mtime ∧
      ∀ old ∈ seen, old.mtime < entry.mtime := by
  have nonnegative : 0 ≤ sync.mtime := by
    rcases watermark.attained with ⟨zero, _⟩ | ⟨old, inSeen, time⟩
    · omega
    · have positive := (watermark.importable old inSeen).2.2
      omega
  have imports := directoryRun_imports named arrivals sync watermark.same
    nonnegative
  obtain ⟨round, member, inside⟩ :
      ∃ round ∈ directoryRun sync arrivals, entry ∈ round := by
    by_contra never
    push Not at never
    rw [importCount_eq_zero never] at once
    omega
  obtain ⟨notReadme, positive⟩ := imports round member entry inside
  refine ⟨notReadme, positive, ?_⟩
  intro old inSeen
  by_contra notYounger
  obtain ⟨admissible, oldNotReadme, _⟩ := watermark.importable old inSeen
  have order := importCount_mono named (Int.not_lt.mp notYounger) admissible
    oldNotReadme arrivals sync seen watermark.same inSeen arrives
  rw [never old inSeen, once] at order
  omega

/-- A round that finds nothing new resets the watermark, so that the next one
imports every file again. -/
theorem reimported_after_idle (named : dir ≠ []) {next : Arrival}
    (watermark : Watermark sync dir seen)
    (arrives : Arrivals seen (arrival :: next :: later)) (idle : arrival.added = [])
    (inSeen : entry ∈ seen) :
    importCount entry (directoryRun (scanForeignSync sync
      (some arrival.listing)).1 (next :: later)) ≠ 0 := by
  have taken := taken_iff_added named watermark arrives (by
    intro new inAdded
    rw [idle] at inAdded
    cases inAdded)
  obtain ⟨_, listed, _, listedNext, _⟩ := arrives
  have found : entry ∈ arrival.listing :=
    ((listed entry).mpr (List.mem_append_left _ inSeen)).1
  have foundNext : entry ∈ next.listing :=
    ((listedNext entry).mpr (List.mem_append_left _ (List.mem_append_left _ inSeen))).1
  have atDir : sync.dir ≠ [] := by
    rw [watermark.same]
    exact named
  obtain ⟨sameAfter, imported⟩ := scanForeignSync_imported sync atDir
    (List.ne_nil_of_mem found)
  have reset : (scanForeignSync sync (some arrival.listing)).1.mtime = 0 := by
    rcases imported.attained with zero | ⟨new, isTaken, _⟩
    · exact zero
    · have inAdded := (taken new).mp isTaken
      rw [idle] at inAdded
      cases inAdded
  obtain ⟨_, importedNext⟩ := scanForeignSync_imported
    (scanForeignSync sync (some arrival.listing)).1
    (by rw [sameAfter]; exact atDir) (List.ne_nil_of_mem foundNext)
  obtain ⟨admissible, notReadme, positive⟩ := watermark.importable entry inSeen
  have again := (importedNext.taken entry).mpr
    ⟨foundNext, by omega, admissible,
      by rw [sameAfter, watermark.same]; exact notReadme⟩
  rw [importCount_cons, if_pos again]
  omega

/-- From a proper watermark on, the files seen are not imported again and every
later one is imported in exactly one round, exactly when the rounds keep up. -/
theorem directoryRun_once_iff (named : dir ≠ []) :
    ∀ (arrivals : List Arrival) (sync : ForeignSync) (seen : List DirEntry),
      Watermark sync dir seen → Arrivals seen arrivals →
      (((∀ entry ∈ seen, importCount entry (directoryRun sync arrivals) = 0) ∧
        ∀ arrival ∈ arrivals, ∀ entry ∈ arrival.added,
          importCount entry (directoryRun sync arrivals) = 1) ↔
      KeepsUp dir seen arrivals) := by
  intro arrivals
  induction arrivals with
  | nil =>
      intro sync seen _ _
      constructor
      · intro _
        trivial
      · intro _
        exact ⟨fun _ _ => rfl, fun _ member => by cases member⟩
  | cons arrival later induction =>
      intro sync seen watermark arrives
      have notSeen := arrivals_not_seen _ _ arrives
      have notSeenLater := arrivals_not_seen _ _ arrives.2.2
      constructor
      · rintro ⟨never, once⟩
        have fresh := fun entry inAdded => fresh_of_once named watermark
          arrives never (once arrival List.mem_cons_self entry inAdded)
        have taken := taken_iff_added named watermark arrives fresh
        simp only [importCount_cons, taken] at never once
        have progress : later ≠ [] → arrival.added = [] → seen = [] := by
          intro notLast idle
          obtain ⟨next, rest, rfl⟩ := List.exists_cons_of_ne_nil notLast
          rw [List.eq_nil_iff_forall_not_mem]
          intro entry inSeen
          have zero := never entry inSeen
          exact reimported_after_idle named watermark arrives idle inSeen
            (by omega)
        refine ⟨fresh, progress, ?_⟩
        by_cases last : later = []
        · subst last
          trivial
        · refine (induction _ _ (watermark_step named watermark arrives fresh
            (progress last)) arrives.2.2).mp ⟨?_, ?_⟩
          · intro entry member
            rcases List.mem_append.mp member with inSeen | inAdded
            · have zero := never entry inSeen
              omega
            · have one := once arrival List.mem_cons_self entry inAdded
              rw [if_pos inAdded] at one
              omega
          · intro next inLater entry inAdded
            have one := once next (List.mem_cons_of_mem _ inLater) entry
              inAdded
            rwa [if_neg fun isAdded => notSeenLater next inLater entry inAdded
              (List.mem_append_right _ isAdded)] at one
      · simp only [importCount_cons]
        rintro ⟨fresh, progress, keepsUp⟩
        have taken := taken_iff_added named watermark arrives fresh
        have rest : (∀ entry ∈ seen ++ arrival.added, importCount entry
              (directoryRun (scanForeignSync sync
                (some arrival.listing)).1 later) = 0) ∧
            ∀ next ∈ later, ∀ entry ∈ next.added, importCount entry
              (directoryRun (scanForeignSync sync
                (some arrival.listing)).1 later) = 1 := by
          by_cases last : later = []
          · subst last
            exact ⟨fun _ _ => rfl, fun _ member => by cases member⟩
          · exact (induction _ _ (watermark_step named watermark arrives fresh
              (progress last)) arrives.2.2).mpr keepsUp
        obtain ⟨none, once⟩ := rest
        simp only [taken]
        constructor
        · intro entry inSeen
          have notAdded : entry ∉ arrival.added := fun inAdded =>
            notSeen arrival List.mem_cons_self entry inAdded inSeen
          rw [none entry (List.mem_append_left _ inSeen), if_neg notAdded]
        · intro next member entry inAdded
          rcases List.mem_cons.mp member with rfl | inLater
          · rw [none entry (List.mem_append_right _ inAdded), if_pos inAdded]
          · have notAdded : entry ∉ arrival.added := fun isAdded =>
              notSeenLater next inLater entry inAdded
                (List.mem_append_right _ isAdded)
            rw [once next inLater entry inAdded, if_neg notAdded]

end Directory

theorem importsOf_foreignRun (iter : Nat) :
    ∀ (rounds : List (Nat → Arrival)) (syncs : List ForeignSync)
      (sync : ForeignSync), syncs[iter]? = some sync →
      importsOf iter (foreignRun syncs rounds) =
        directoryRun sync (rounds.map fun round => round iter) := by
  intro rounds
  induction rounds with
  | nil => intro _ _ _; rfl
  | cons round later induction =>
      intro syncs sync found
      have scanned : (syncs.zipIdx.map fun sync => scanForeignSync sync.1
          (some (round sync.2).listing))[iter]? =
          some (scanForeignSync sync (some (round iter).listing)) := by
        rw [List.getElem?_map, List.getElem?_zipIdx, found]
        simp
      rw [foreignRun, importsOf, List.map_cons, List.map_cons, directoryRun]
      congr 1
      · simp [readForeignTestcases, List.getD_eq_getElem?_getD, found]
      · apply induction
        simp only [readForeignTestcases]
        rw [List.getElem?_map, scanned]
        rfl

/-- Every file is imported in exactly one round, whichever directory it is put
into, exactly when the arrivals of every directory keep up with its watermark:
later files are strictly younger, and no round but the last is idle in a
directory that has had files. -/
theorem foreignRun_once_iff (dirs : List CString)
    (named : ∀ dir ∈ dirs, dir ≠ []) (rounds : List (Nat → Arrival))
    (arrives : ∀ iter < dirs.length,
      Arrivals [] (rounds.map fun round => round iter)) :
    (∀ iter < dirs.length, ∀ round ∈ rounds, ∀ entry ∈ (round iter).added,
      importCount entry
        (importsOf iter (foreignRun (startSyncs dirs) rounds)) = 1) ↔
    ∀ iter dir, dirs[iter]? = some dir →
      KeepsUp dir [] (rounds.map fun round => round iter) := by
  have directory : ∀ iter dir, dirs[iter]? = some dir →
      ((∀ round ∈ rounds, ∀ entry ∈ (round iter).added,
        importCount entry
          (importsOf iter (foreignRun (startSyncs dirs) rounds)) = 1) ↔
      KeepsUp dir [] (rounds.map fun round => round iter)) := by
    intro iter dir found
    have inside : iter < dirs.length := by
      by_contra outside
      rw [List.getElem?_eq_none (Nat.le_of_not_lt outside)] at found
      cases found
    have start : (startSyncs dirs)[iter]? = some { dir := dir, mtime := 0 } := by
      rw [startSyncs, List.getElem?_map, found]
      rfl
    have watermark : Watermark { dir := dir, mtime := 0 } dir [] :=
      { same := rfl
        upper := fun _ member => by cases member
        attained := .inl ⟨rfl, rfl⟩
        importable := fun _ member => by cases member }
    rw [← directoryRun_once_iff (named dir (List.mem_of_getElem? found)) _ _ _
        watermark (arrives iter inside),
      importsOf_foreignRun iter rounds _ _ start]
    simp
  constructor
  · intro once iter dir found
    have inside : iter < dirs.length := by
      by_contra outside
      rw [List.getElem?_eq_none (Nat.le_of_not_lt outside)] at found
      cases found
    exact (directory iter dir found).mp (once iter inside)
  · intro keepsUp iter inside
    have found := List.getElem?_eq_getElem inside
    exact (directory iter _ found).mpr (keepsUp iter _ found)

/-- An admissible file of one byte. -/
def seedFile (name : Char) (mtime : Int) : DirEntry :=
  { dName := [name]
    accessible := true
    mtime
    regular := true
    size := 1
    mapped := true }

private theorem seedFile_regular (name : Char) (mtime : Int) :
    (seedFile name mtime).regular = true := rfl

theorem seedFile_admissible (name : Char) (mtime : Int) :
    Admissible (seedFile name mtime) :=
  ⟨rfl, rfl, Nat.one_ne_zero, (by decide : 1 ≤ maxFile), rfl⟩

/-- Two rounds, each of which finds a file a second younger than the last. -/
def twoSeconds : List (Nat → Arrival) :=
  [fun _ => ⟨[seedFile 'a' 10], [seedFile 'a' 10]⟩,
    fun _ => ⟨[seedFile 'b' 11], [seedFile 'a' 10, seedFile 'b' 11]⟩]

/-- Two files, one a second younger than the other, are imported once each. -/
theorem foreignRun_once_two_seconds :
    importCount (seedFile 'a' 10)
        (importsOf 0 (foreignRun (startSyncs [['q']]) twoSeconds)) = 1 ∧
      importCount (seedFile 'b' 11)
        (importsOf 0 (foreignRun (startSyncs [['q']]) twoSeconds)) = 1 := by
  have once := (foreignRun_once_iff [['q']] (by decide) twoSeconds ?_).mpr ?_
  · exact ⟨once 0 (by decide) _ (.head _) _ (.head _),
      once 0 (by decide) _ (.tail _ (.head _)) _ (.head _)⟩
  · intro iter _
    have different : seedFile 'b' 11 ≠ seedFile 'a' 10 := by decide
    refine ⟨?_, ?_, ?_, ?_, trivial⟩
    · simp [seedFile_admissible]
    · simp +contextual [seedFile_regular]
    · simp [seedFile_admissible, different]
    · simp +contextual [or_imp, seedFile_regular]
  · intro iter dir found
    have isQ : dir = ['q'] := by
      simpa using List.mem_of_getElem? found
    subst dir
    have older : (seedFile 'a' 10).isReadme ['q'] = false := by decide
    have younger : (seedFile 'b' 11).isReadme ['q'] = false := by decide
    refine ⟨?_, by simp, ?_, by simp, trivial⟩
    · intro entry member
      obtain rfl := List.mem_singleton.mp member
      exact ⟨older, by decide, fun _ none => by cases none⟩
    · intro entry member
      obtain rfl := List.mem_singleton.mp member
      refine ⟨younger, by decide, fun old seen => ?_⟩
      obtain rfl := List.mem_singleton.mp seen
      decide

/-- After a round that finds nothing new, a known file is imported again. -/
theorem foreignRun_repeats_after_idle :
    ¬∀ (dirs : List CString), (∀ dir ∈ dirs, dir ≠ []) →
      ∀ rounds : List (Nat → Arrival),
        (∀ iter < dirs.length, Arrivals [] (rounds.map fun round => round iter)) →
        ∀ iter < dirs.length, ∀ round ∈ rounds,
          ∀ entry ∈ (round iter).added, importCount entry
            (importsOf iter (foreignRun (startSyncs dirs) rounds)) = 1 := by
  intro once
  -- One file, then two rounds that find nothing new.
  have repeated := once [['q']] (by decide)
    [fun _ => ⟨[seedFile 'a' 10], [seedFile 'a' 10]⟩,
      fun _ => ⟨[], [seedFile 'a' 10]⟩, fun _ => ⟨[], [seedFile 'a' 10]⟩]
    (by
      intro iter _
      refine ⟨?_, ?_, ?_, ?_, ?_, ?_, trivial⟩
      · simp [seedFile_admissible]
      all_goals simp +contextual [seedFile_regular])
    0 (by decide) _ List.mem_cons_self _ List.mem_cons_self
  revert repeated
  decide

/-- A file that arrives in the second of the previous import is skipped. -/
example : importCount (seedFile 'b' 10)
    (importsOf 0 (foreignRun (startSyncs [['q']])
      [fun _ => ⟨[seedFile 'a' 10], [seedFile 'a' 10]⟩,
        fun _ => ⟨[seedFile 'b' 10], [seedFile 'a' 10, seedFile 'b' 10]⟩])) = 0 := by
  decide

end AFLPlusPlus
