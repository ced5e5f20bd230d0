import AFLPlusPlus.Queue.Counters

/-!
# Entries with one checksum

Behind the calibrations `perform_dry_run` compares every entry with every later
one and disables the longer one of two with one checksum.  One entry is left for
each checksum, and it is one of the shortest.
-/

namespace AFLPlusPlus

namespace QueueState

/-- Some entries that took part in the comparisons have been disabled, each of
which is represented by one that still does. -/
structure Thinned (before after : QueueState) : Prop where
  queuedPaths : after.queuedPaths = before.queuedPaths
  /-- an entry that takes part is as it was -/
  candidates : ∀ id, comparable (after.queueBuf id) = true →
    after.queueBuf id = before.queueBuf id
  others : ∀ id, comparable (before.queueBuf id) = false →
    after.queueBuf id = before.queueBuf id
  disabled : ∀ id, comparable (before.queueBuf id) = true →
    comparable (after.queueBuf id) = false → (after.queueBuf id).disabled = true
  represented : ∀ id < before.queuedPaths,
    comparable (before.queueBuf id) = true →
      ∃ kept < before.queuedPaths,
        comparable (after.queueBuf kept) = true ∧
          (before.queueBuf kept).execCksum = (before.queueBuf id).execCksum ∧
          (before.queueBuf kept).len ≤ (before.queueBuf id).len
  activePaths : before.activePaths = after.activePaths +
    Nat.count (fun id => comparable (before.queueBuf id) = true ∧
      comparable (after.queueBuf id) = false) before.queuedPaths

/-- Entries that take part in the comparisons are not marked as fuzzed. -/
def Unfuzzed (afl : QueueState) : Prop :=
  ∀ id < afl.queuedPaths, comparable (afl.queueBuf id) = true →
    (afl.queueBuf id).wasFuzzed = false

theorem Thinned.refl (afl : QueueState) : Thinned afl afl where
  queuedPaths := rfl
  candidates := fun _ _ => rfl
  others := fun _ _ => rfl
  disabled := by
    intro id candidate other
    rw [candidate] at other
    cases other
  represented := fun id inside candidate =>
    ⟨id, inside, candidate, rfl, BitVec.le_refl _⟩
  activePaths := by
    have none : Nat.count (fun id => comparable (afl.queueBuf id) = true ∧
        comparable (afl.queueBuf id) = false) afl.queuedPaths = 0 := by
      apply Nat.count_of_forall_not
      rintro id _ ⟨candidate, other⟩
      rw [candidate] at other
      cases other
    rw [none]
    exact (Int.add_zero _).symm

variable {before after : QueueState}

theorem comparable_disableEntry (afl : QueueState) (q : Nat) :
    comparable ((afl.disableEntry q).queueBuf q) = false := by
  simp [disableEntry, comparable]

variable {id idx kept q : Nat}

theorem ne_of_comparable {afl : QueueState}
    (stays : comparable ((afl.disableEntry q).queueBuf id) = true) :
    id ≠ q := by
  rintro rfl
  rw [comparable_disableEntry] at stays
  cases stays

/-- One of two entries with one checksum is disabled, the other one is not
longer. -/
theorem Thinned.disableEntry (thinned : Thinned before after) (unfuzzed : before.Unfuzzed)
    (inside : q < before.queuedPaths) (keptInside : kept < before.queuedPaths)
    (different : kept ≠ q) (candidate : comparable (after.queueBuf q) = true)
    (keptCandidate : comparable (after.queueBuf kept) = true)
    (same : (after.queueBuf kept).execCksum = (after.queueBuf q).execCksum)
    (shorter : (after.queueBuf kept).len ≤ (after.queueBuf q).len) :
    Thinned before (after.disableEntry q) := by
  have unchanged : ∀ id ≠ q, (after.disableEntry q).queueBuf id = after.queueBuf id :=
    fun id other => disableEntry_queueBuf_of_ne after other
  have gone := comparable_disableEntry after q
  have was := thinned.candidates q candidate
  have keptWas := thinned.candidates kept keptCandidate
  have before_candidate : comparable (before.queueBuf q) = true := was ▸ candidate
  constructor
  · exact thinned.queuedPaths
  · intro id stays
    have other := ne_of_comparable stays
    rw [unchanged id other] at stays ⊢
    exact thinned.candidates id stays
  · intro id outside
    have other : id ≠ q := by
      rintro rfl
      rw [before_candidate] at outside
      cases outside
    rw [unchanged id other]
    exact thinned.others id outside
  · intro id wasCandidate isGone
    by_cases last : id = q
    · rw [last]
      simp [QueueState.disableEntry]
    · rw [unchanged id last] at isGone ⊢
      exact thinned.disabled id wasCandidate isGone
  · intro id idInside wasCandidate
    obtain ⟨first, firstInside, stays, cksum, len⟩ :=
      thinned.represented id idInside wasCandidate
    by_cases last : first = q
    · subst last
      refine ⟨kept, keptInside, ?_, ?_, ?_⟩
      · rw [unchanged kept different]
        exact keptCandidate
      · rw [← keptWas, same, was, cksum]
      · rw [← keptWas]
        rw [was] at shorter
        exact BitVec.le_trans shorter len
    · refine ⟨first, firstInside, ?_, cksum, len⟩
      rw [unchanged first last]
      exact stays
  · have counted := @Counting.count_add
      (fun id => comparable (before.queueBuf id) = true ∧
        comparable (after.queueBuf id) = false)
      (fun id => comparable (before.queueBuf id) = true ∧
        comparable ((after.disableEntry q).queueBuf id) = false)
      _ _ _ _ inside (fun id _ other => by rw [unchanged id other])
      (fun both => by
        rw [candidate] at both
        exact absurd both.2 Bool.noConfusion)
      ⟨before_candidate, gone⟩
    have fresh : (after.queueBuf q).wasFuzzed = false := by
      rw [was]
      exact unfuzzed q inside before_candidate
    have active : (after.disableEntry q).activePaths = after.activePaths - 1 :=
      if_pos fresh
    rw [counted, active, thinned.activePaths]
    omega

/-- Entries up to `idx` have been compared with every later one. -/
structure Compared (before : QueueState) (idx : Nat) (after : QueueState) : Prop where
  thinned : Thinned before after
  apart : ∀ first < idx, ∀ later < before.queuedPaths, first < later →
    comparable (after.queueBuf first) = true →
      comparable (after.queueBuf later) = true →
        (after.queueBuf first).execCksum ≠ (after.queueBuf later).execCksum

theorem Compared.disableEntry (compared : Compared before idx after)
    (unfuzzed : before.Unfuzzed) (inside : q < before.queuedPaths)
    (keptInside : kept < before.queuedPaths) (different : kept ≠ q)
    (candidate : comparable (after.queueBuf q) = true)
    (keptCandidate : comparable (after.queueBuf kept) = true)
    (same : (after.queueBuf kept).execCksum = (after.queueBuf q).execCksum)
    (shorter : (after.queueBuf kept).len ≤ (after.queueBuf q).len) :
    Compared before idx (after.disableEntry q) := by
  refine ⟨compared.thinned.disableEntry unfuzzed inside keptInside different
    candidate keptCandidate same shorter, ?_⟩
  have still : ∀ id, comparable ((after.disableEntry q).queueBuf id) = true →
      (after.disableEntry q).queueBuf id = after.queueBuf id :=
    fun id stays => disableEntry_queueBuf_of_ne after (ne_of_comparable stays)
  intro first below later laterInside order firstStays laterStays
  have firstSame := still first firstStays
  have laterSame := still later laterStays
  rw [firstSame] at firstStays
  rw [laterSame] at laterStays
  rw [firstSame, laterSame]
  exact compared.apart first below later laterInside order firstStays laterStays

/-- The entry is compared with those up to `idx + round`, unless it has been
disabled. -/
structure Comparing (before : QueueState) (idx round : Nat)
    (state : QueueState × Bool) : Prop where
  compared : Compared before idx state.1
  takes : comparable (state.1.queueBuf idx) = !state.2
  apart : state.2 = false → ∀ later, idx < later → later < idx + 1 + round →
    comparable (state.1.queueBuf later) = true →
      (state.1.queueBuf idx).execCksum ≠ (state.1.queueBuf later).execCksum

theorem Comparing.duplicateRound {round : Nat} {state : QueueState × Bool}
    (comparing : Comparing before idx round state) (unfuzzed : before.Unfuzzed)
    (inside : idx + 1 + round < before.queuedPaths) :
    Comparing before idx (round + 1) (duplicateRound idx round state) := by
  obtain ⟨compared, takes, apart⟩ := comparing
  have different : idx ≠ idx + 1 + round := by omega
  unfold QueueState.duplicateRound
  dsimp only
  split
  · rename_i skipped
    refine ⟨compared, takes, ?_⟩
    intro running later above below stays
    by_cases last : later = idx + 1 + round
    · subst last
      rw [running, stays] at skipped
      cases skipped
    · exact apart running later above (by omega) stays
  rename_i active
  rw [Bool.or_eq_true, not_or, Bool.not_eq_true, Bool.not_eq_true,
    Bool.not_eq_false'] at active
  obtain ⟨running, other⟩ := active
  have own : comparable (state.1.queueBuf idx) = true := by
    rw [takes, running]
    rfl
  split
  · rename_i same
    split
    · rename_i notLonger
      refine ⟨compared.disableEntry unfuzzed inside (by omega) different other
        own same.symm notLonger, ?_, ?_⟩
      · rw [disableEntry_queueBuf_of_ne state.1 different]
        exact own
      · intro _ later above below stays
        have earlier := ne_of_comparable stays
        rw [disableEntry_queueBuf_of_ne state.1 earlier] at stays ⊢
        rw [disableEntry_queueBuf_of_ne state.1 different]
        exact apart running later above (by omega) stays
    · rename_i longer
      refine ⟨compared.disableEntry unfuzzed (by omega) inside different.symm own
        other same (BitVec.le_of_lt (BitVec.not_le.mp longer)), ?_, ?_⟩
      · exact comparable_disableEntry state.1 idx
      · intro done
        cases done
  · rename_i distinct
    refine ⟨compared, takes, ?_⟩
    intro _ later above below stays
    by_cases last : later = idx + 1 + round
    · subst last
      exact Ne.symm distinct
    · exact apart running later above (by omega) stays

theorem Compared.duplicatesOf (compared : Compared before idx after)
    (unfuzzed : before.Unfuzzed) (inside : idx < before.queuedPaths) :
    Compared before (idx + 1) (duplicatesOf idx after) := by
  have length := compared.thinned.queuedPaths
  unfold QueueState.duplicatesOf
  split
  · rename_i candidate
    have comparing := forRange_invariant (QueueState.duplicateRound idx)
      (Comparing before idx) (after, false)
      ⟨compared, candidate, fun _ later above below => by omega⟩
      (after.queuedPaths - (idx + 1))
      (fun round roundInside state comparing =>
        comparing.duplicateRound unfuzzed (by omega))
    refine ⟨comparing.compared.thinned, ?_⟩
    intro first below later laterInside order firstStays laterStays
    by_cases last : first = idx
    · subst last
      have running := comparing.takes.symm.trans firstStays
      rw [Bool.not_eq_true'] at running
      exact comparing.apart running later order (by omega) laterStays
    · exact comparing.compared.apart first (by omega) later laterInside order
        firstStays laterStays
  · rename_i skipped
    refine ⟨compared.thinned, ?_⟩
    intro first below later laterInside order firstStays laterStays
    by_cases last : first = idx
    · subst last
      exact absurd firstStays skipped
    · exact compared.apart first (by omega) later laterInside order firstStays
        laterStays

/-- Of the entries that are compared, one of the shortest is left for each
checksum, and nothing else is disabled. -/
structure OnePerChecksum (before after : QueueState) : Prop where
  remains : ∀ id < before.queuedPaths,
    comparable (before.queueBuf id) = true →
      ∃ kept < before.queuedPaths,
        comparable (before.queueBuf kept) = true ∧
          (before.queueBuf kept).execCksum = (before.queueBuf id).execCksum ∧
          (after.queueBuf kept).disabled = false ∧
          ∀ other < before.queuedPaths,
            comparable (before.queueBuf other) = true →
              (before.queueBuf other).execCksum = (before.queueBuf id).execCksum →
                (before.queueBuf kept).len ≤ (before.queueBuf other).len ∧
                  ((after.queueBuf other).disabled = false → other = kept)
  others : ∀ id, comparable (before.queueBuf id) = false →
    after.queueBuf id = before.queueBuf id
  activePaths : before.activePaths = after.activePaths +
    Nat.count (fun id => (before.queueBuf id).disabled = false ∧
      (after.queueBuf id).disabled = true) before.queuedPaths

theorem Thinned.comparable_iff (thinned : Thinned before after)
    (candidate : comparable (before.queueBuf id) = true) :
    comparable (after.queueBuf id) = true ↔ (after.queueBuf id).disabled = false := by
  constructor
  · exact comparable_enabled
  · intro enabled
    by_contra gone
    rw [Bool.not_eq_true] at gone
    rw [thinned.disabled id candidate gone] at enabled
    cases enabled

theorem Compared.onePerChecksum
    (compared : Compared before before.queuedPaths after) :
    OnePerChecksum before after := by
  have thinned := compared.thinned
  -- two entries with one checksum that are both left are one
  have unique : ∀ first < before.queuedPaths, ∀ second < before.queuedPaths,
      comparable (after.queueBuf first) = true →
        comparable (after.queueBuf second) = true →
          (before.queueBuf first).execCksum =
            (before.queueBuf second).execCksum → first = second := by
    intro first firstInside second secondInside firstStays secondStays same
    rw [← thinned.candidates first firstStays,
      ← thinned.candidates second secondStays] at same
    by_contra different
    rcases Nat.lt_or_gt_of_ne different with order | order
    · exact compared.apart first firstInside second secondInside order
        firstStays secondStays same
    · exact compared.apart second secondInside first firstInside order
        secondStays firstStays same.symm
  constructor
  · intro id inside candidate
    obtain ⟨kept, keptInside, stays, cksum, _⟩ :=
      thinned.represented id inside candidate
    have was := thinned.candidates kept stays
    refine ⟨kept, keptInside, was ▸ stays, cksum, comparable_enabled stays, ?_⟩
    intro other otherInside otherCandidate otherCksum
    constructor
    · obtain ⟨shortest, shortestInside, alsoStays, sameCksum, len⟩ :=
        thinned.represented other otherInside otherCandidate
      have one := unique shortest shortestInside kept keptInside alsoStays stays
        (sameCksum.trans (otherCksum.trans cksum.symm))
      rwa [one] at len
    · intro enabled
      exact unique other otherInside kept keptInside
        ((thinned.comparable_iff otherCandidate).mpr enabled) stays
        (otherCksum.trans cksum.symm)
  · exact thinned.others
  · rw [thinned.activePaths]
    congr 2
    apply Counting.count_congr
    intro id _
    cases candidate : comparable (before.queueBuf id) with
    | true =>
        have enabled := comparable_enabled candidate
        have gone := not_congr (thinned.comparable_iff candidate)
        rw [Bool.not_eq_true, Bool.not_eq_false] at gone
        rw [enabled, gone]
        simp
    | false =>
        rw [thinned.others id candidate]
        simp

theorem onePerChecksum_duplicatesOf (unfuzzed : before.Unfuzzed) :
    OnePerChecksum before
      (forRange duplicatesOf before.queuedPaths before) := by
  have compared := forRange_invariant duplicatesOf (Compared before) before
    ⟨Thinned.refl before, fun first below => absurd below (Nat.not_lt_zero _)⟩
    before.queuedPaths fun idx inside after compared =>
      compared.duplicatesOf unfuzzed inside
  exact compared.onePerChecksum

/-- An entry that is marked as fuzzed is disabled. -/
def Fresh (afl : QueueState) : Prop :=
  ∀ id < afl.queuedPaths, (afl.queueBuf id).wasFuzzed = true →
    (afl.queueBuf id).disabled = true

namespace Fresh

variable {afl : QueueState} {run : DryRun}

theorem unfuzzed (fresh : afl.Fresh) : afl.Unfuzzed := by
  intro id inside candidate
  by_contra fuzzed
  rw [Bool.not_eq_false] at fuzzed
  have enabled := comparable_enabled candidate
  rw [fresh id inside fuzzed] at enabled
  cases enabled

theorem disableEntry (fresh : afl.Fresh) (q : Nat) : (afl.disableEntry q).Fresh := by
  intro id inside fuzzed
  by_cases last : id = q
  · rw [last]
    simp [QueueState.disableEntry]
  · rw [disableEntry_queueBuf_of_ne afl last] at fuzzed ⊢
    exact fresh id inside fuzzed

theorem of_sameProgress (fresh : afl.Fresh) {next : QueueState}
    (same : SameProgress afl next) : next.Fresh := by
  intro id inside fuzzed
  rw [same.disabled]
  exact fresh id (same.queuedPaths ▸ inside) (same.wasFuzzed id ▸ fuzzed)

theorem dryRunSwitch (fresh : afl.Fresh) (q : Nat) (res : RunResult)
    (calFailures : Nat) :
    Yields (fun _ => True) (fun result => result.1.Fresh)
      (dryRunSwitch run q res calFailures afl) := by
  unfold QueueState.dryRunSwitch
  cases res with
  | ok =>
      dsimp only
      split
      · trivial
      · exact fresh
  | tmout =>
      dsimp only
      split
      · apply Fresh.disableEntry
        apply fresh.of_sameProgress
        exact sameProgress_modify q
          (fun entry => { entry with calFailed := calChances })
          (fun _ => ⟨rfl, rfl, rfl⟩) rfl rfl rfl rfl rfl
      · trivial
  | crash =>
      dsimp only
      split
      · exact fresh
      split
      · trivial
      · exact fresh.disableEntry q
  | error => trivial
  | noinst => trivial
  | nobits => exact fresh

theorem dryRunRound {idx : Nat} {state : DryRunState}
    (fresh : state.afl.Fresh) :
    Yields (fun _ => True) (fun next => next.afl.Fresh)
      (dryRunRound run idx state) := by
  have calibrated := fresh.of_sameProgress
    (calibrateCase_sameProgress state.afl idx (run.cases idx).calibration)
  unfold QueueState.dryRunRound
  split
  · exact fresh
  split
  · exact fresh
  split
  · exact fresh
  dsimp only
  split
  · exact calibrated
  · exact (calibrated.dryRunSwitch idx _ _).bind fun _ resultFresh =>
      resultFresh

end Fresh

/-- A dry run of entries that have just been added removes the duplicates of the
entries that its calibrations leave. -/
theorem performDryRun_onePerChecksum {afl : QueueState} {run : DryRun}
    {state : DryRunState}
    (new : ∀ id < afl.queuedPaths, (afl.queueBuf id).wasFuzzed = false)
    (calibrated : forRangeM (dryRunRound run) afl.queuedPaths
      { afl, calFailures := 0, stopped := false } = .ok state)
    (running : state.stopped = false)
    (accepted : ¬(state.calFailures ≠ 0 ∧ state.calFailures = state.afl.queuedPaths)) :
    ∃ final, afl.performDryRun run = .ok final ∧ OnePerChecksum state.afl final := by
  have fresh : state.afl.Fresh := by
    have yields := @forRangeM_yields _ _ (fun _ => True) (QueueState.dryRunRound run)
      (fun _ state => state.afl.Fresh)
      { afl, calFailures := 0, stopped := false }
      (fun id inside fuzzed => by
        rw [new id inside] at fuzzed
        cases fuzzed)
      afl.queuedPaths (fun _ _ _ fresh => fresh.dryRunRound)
    rw [calibrated] at yields
    exact yields
  refine ⟨_, ?_, onePerChecksum_duplicatesOf fresh.unfuzzed⟩
  unfold performDryRun
  rw [calibrated, ok_bind, if_neg (by
    rw [running]
    exact Bool.false_ne_true), if_neg accepted]

def twoAlike : QueueState :=
  (smallMap.start.addToQueue 10#32 false).addToQueue 9#32 false

set_option maxRecDepth 20000 in
theorem performDryRun_onePerChecksum_two :
    ∃ state final,
      forRangeM (dryRunRound alikeCases) 2
          { afl := twoAlike, calFailures := 0, stopped := false } =
        .ok state ∧
      twoAlike.performDryRun alikeCases = .ok final ∧
      OnePerChecksum state.afl final := by
  have new : ∀ id < twoAlike.queuedPaths,
      (twoAlike.queueBuf id).wasFuzzed = false := by
    intro id inside
    have bound : id < 2 := inside
    decide +revert
  have accepted : ∀ state : DryRunState, state.calFailures = 0 →
      ¬(state.calFailures ≠ 0 ∧ state.calFailures = state.afl.queuedPaths) :=
    fun _ none both => both.1 none
  obtain ⟨final, dried, left⟩ := @performDryRun_onePerChecksum twoAlike
    alikeCases _ new rfl rfl (accepted _ rfl)
  exact ⟨_, final, rfl, dried, left⟩

end QueueState

end AFLPlusPlus
