import AFLPlusPlus.Minimize.TminStages

/-!
# The minimizer as a whole

The passes follow each other as long as they change something.  Each change
takes weight from the input, so there is a last pass, and in it every byte has
been left out in vain.
-/

namespace AFLPlusPlus

variable {changed : Bool} {Answers : List (BitVec 8) → Bool → Prop} {start tmin : Tmin}
    {allowed : TminExit → Prop}

namespace Tmin

variable {settings : TminSettings} {target : TminTarget}

variable (settings target) in
theorem running_any (start : Tmin) :
    Running settings target (fun _ _ => True) (fun _ => True) start := by
  intro tmin changed _ mem
  cases tmin.tminRunTarget settings target mem false <;> trivial

theorem pass_since {next : Tmin} {curPass : Nat} {changedAny : Bool} (fits : tmin.Fits)
    (passed : tmin.pass settings target curPass = .ok (next, changedAny)) :
    Since (fun _ _ => True) tmin next changedAny := by
  have yields := pass_yields (running_any settings target tmin) fits curPass
  rw [passed] at yields
  exact yields.1

variable (settings target) in
/-- The passes that follow a number of passes. -/
def passes (curPass : Nat) (tmin : Tmin) (fits : tmin.Fits) : Except TminExit Tmin :=
  match passed : tmin.pass settings target (curPass + 1) with
  | .error exit => .error exit
  | .ok (next, changedAny) =>
      have since := pass_since fits passed
      if again : changedAny = true then
        have := since.lighter again
        passes (curPass + 1) next since.fits
      else .ok next
termination_by tmin.weight

/-- What is assumed since a start is assumed since a later point. -/
theorem Running.later (running : Running settings target Answers allowed start)
    (since : Since Answers start tmin changed) :
    Running settings target Answers allowed tmin :=
  fun _ _ after => running _ _ (since.trans after)

theorem Refused.earlier {middle : Tmin} {candidate : List (BitVec 8)}
    (refused : Refused middle tmin candidate)
    (since : Since Answers start middle changed) :
    Refused start tmin candidate := by
  obtain ⟨newer, runs, member⟩ := refused
  obtain ⟨older, earlier, _⟩ := since.tried
  exact ⟨newer ++ older, by rw [runs, earlier, List.append_assoc],
    List.mem_append_left _ member⟩

theorem passes_yields (running : Running settings target Answers allowed start)
    (since : Since Answers start tmin changed) (curPass : Nat) :
    Yields allowed
      (fun final => (∃ changed, Since Answers start final changed) ∧
        ∀ i < final.data.length, Refused start final (final.data.eraseIdx i))
      (passes settings target curPass tmin since.fits) := by
  have fits := since.fits
  change Yields allowed _ (passes settings target curPass tmin fits)
  fun_induction passes settings target curPass tmin fits generalizing changed
    with
  | case1 curPass tmin fits exit passed =>
      have yields := pass_yields (running.later since) fits (curPass + 1)
      rw [passed] at yields
      exact yields
  | case2 curPass tmin fits next passed _ _ induction =>
      have yields := pass_yields (running.later since) fits (curPass + 1)
      rw [passed] at yields
      exact induction (since.trans yields.1)
  | case3 curPass tmin fits next changedAny passed _ last =>
      have yields := pass_yields (running.later since) fits (curPass + 1)
      rw [passed] at yields
      obtain ⟨after, minimal⟩ := yields
      refine ⟨⟨_, since.trans after⟩, fun i inside => ?_⟩
      exact (minimal (Bool.eq_false_iff.mpr last) i inside).earlier since

/-- What `read_initial_file` lets through. -/
structure Loaded (tmin : Tmin) : Prop where
  whole : tmin.inData.length = tmin.inLen
  nonempty : 0 < tmin.inLen
  small : tmin.inLen < tminMaxFile

/-- The state after `ck_alloc_nozero`, with a fresh record of runs. -/
def allocate (tmin : Tmin) (fresh : Nat → BitVec 8) : Tmin :=
  { tmin with tmpBuf := (List.range tmin.inLen).map fresh, runs := [] }

theorem Loaded.allocate_fits (loaded : tmin.Loaded) (fresh : Nat → BitVec 8) :
    (tmin.allocate fresh).Fits := by
  refine ⟨Nat.le_of_eq loaded.whole.symm, ?_⟩
  change tmin.inLen ≤ ((List.range tmin.inLen).map fresh).length
  rw [List.length_map, List.length_range]

theorem Loaded.allocate_data (loaded : tmin.Loaded) (fresh : Nat → BitVec 8) :
    (tmin.allocate fresh).data = tmin.inData :=
  List.take_of_length_le (Nat.le_of_eq loaded.whole)

theorem Loaded.normalize_fits {next : Tmin} (loaded : tmin.Loaded)
    {fresh : Nat → BitVec 8}
    (normalized : (tmin.allocate fresh).normalize settings target =
      .ok next) : next.Fits := by
  have yields := normalize_yields (running_any settings target _)
    (loaded.allocate_fits fresh)
  rw [normalized] at yields
  obtain ⟨_, since⟩ := yields
  exact since.fits

variable (settings target) in
/-- `minimize`; `fresh` is what `tmp_buf` holds at first. -/
def minimize (tmin : Tmin) (loaded : tmin.Loaded) (fresh : Nat → BitVec 8) :
    Except TminExit Tmin :=
  match normalized : (tmin.allocate fresh).normalize settings target with
  | .error exit => .error exit
  | .ok next => passes settings target 0 next (loaded.normalize_fits normalized)

end Tmin

/-- An early end is due to the target or the user, and what the user's stop
writes is the original or the candidate kept last. -/
def TminExit.Excused (target : TminTarget) (original : List (BitVec 8)) :
    TminExit → Prop
  | .outOfBounds => False
  | .couldntRun => ∃ runs mem, (target runs mem).ret = .error
  | .notInstrumented => ∃ runs mem, (target runs mem).ret = .noinst
  | .aborted tmin => (∃ runs mem, (target runs mem).stopSoon = true) ∧
      tmin.data = Reduction.current original tmin.runs ∧
      tmin.data.length ≤ original.length

namespace Tmin

/-- The answers depend on the candidate only. -/
def Deterministic (settings : TminSettings) (target : TminTarget)
    (tmin : Tmin) (predicate : List (BitVec 8) → Bool) : Prop :=
  ∀ now : Tmin, now.crashMode = tmin.crashMode →
    now.origCksum = tmin.origCksum → ∀ mem, ∃ next,
      now.tminRunTarget settings target mem false = .ok (next, predicate mem)

/-- The original or the candidate kept last, not longer than the original, and
every byte of it has been left out in vain. -/
structure Minimized (original : List (BitVec 8)) (final : Tmin) : Prop where
  kept : final.data = Reduction.current original final.runs
  shorter : final.data.length ≤ original.length
  refused : ∀ i < final.data.length, (final.data.eraseIdx i, false) ∈ final.runs

variable {settings : TminSettings} {target : TminTarget}

theorem Since.current (since : Since Answers start tmin changed)
    (fresh : start.runs = []) :
    tmin.data = Reduction.current start.data tmin.runs ∧
      ∀ run ∈ tmin.runs, Answers run.1 run.2 := by
  obtain ⟨tried, runs, data, answers⟩ := since.tried
  rw [fresh, List.append_nil] at runs
  rw [runs]
  exact ⟨data, answers⟩

theorem Since.length_le (since : Since Answers start tmin changed) (fits : start.Fits) :
    tmin.data.length ≤ start.data.length := by
  rw [since.fits.length_data, fits.length_data]
  exact since.inLen

theorem running_excused (fits : start.Fits) (fresh : start.runs = []) :
    Running settings target (fun _ _ => True)
      (TminExit.Excused target start.data) start := by
  intro tmin changed since mem
  have compared : ∀ now : Tmin, Yields (TminExit.Excused target start.data)
      (fun _ => True) (now.compareTrace settings mem (target tmin.runs mem)
        false) := by
    intro now
    unfold compareTrace
    split
    · rename_i noinst
      exact ⟨_, _, noinst⟩
    · dsimp only
      rw [if_neg Bool.false_ne_true]
      split <;> trivial
  unfold tminRunTarget
  dsimp only
  split
  · rename_i failed
    exact ⟨_, _, failed⟩
  · split
    · rename_i stopped
      exact ⟨⟨_, _, stopped⟩, (since.current fresh).1, since.length_le fits⟩
    · repeat' split
      all_goals first
        | exact compared _
        | trivial

/-- A deterministic target ends no run. -/
theorem Deterministic.running {predicate : List (BitVec 8) → Bool}
    (deterministic : tmin.Deterministic settings target predicate)
    (crashMode : start.crashMode = tmin.crashMode)
    (origCksum : start.origCksum = tmin.origCksum) :
    Running settings target (fun mem res => res = predicate mem)
      (fun _ => False) start := by
  intro now changed since mem
  obtain ⟨next, ran⟩ := deterministic now (since.crashMode.trans crashMode)
    (since.origCksum.trans origCksum) mem
  rw [ran]
  rfl

theorem minimize_yields (loaded : tmin.Loaded) (fresh : Nat → BitVec 8)
    (running : Running settings target Answers allowed (tmin.allocate fresh)) :
    Yields allowed
      (fun final => Minimized tmin.inData final ∧
        ∀ run ∈ final.runs, Answers run.1 run.2)
      (tmin.minimize settings target loaded fresh) := by
  have fits := loaded.allocate_fits fresh
  have normalizing := normalize_yields running fits
  unfold minimize
  split
  · rename_i exit normalized
    rw [normalized] at normalizing
    exact normalizing
  · rename_i next normalized
    rw [normalized] at normalizing
    obtain ⟨changed, since⟩ := normalizing
    refine (passes_yields running since 0).mono ?_
    rintro final ⟨⟨_, after⟩, refused⟩
    have current := after.current rfl
    rw [loaded.allocate_data] at current
    refine ⟨⟨current.1, ?_, ?_⟩, current.2⟩
    · rw [← loaded.allocate_data fresh]
      exact after.length_le fits
    · intro i inside
      obtain ⟨tried, runs, member⟩ := refused i inside
      have none : (tmin.allocate fresh).runs = [] := rfl
      rw [none, List.append_nil] at runs
      rwa [runs]

/-- Whatever the target answers, the minimizer stays inside its buffers and
ends with a minimized input, unless a run ends the program; and nothing can be
left out when the target is a deterministic predicate. -/
theorem minimize_minimized {tmin : Tmin} (loaded : tmin.Loaded)
    (fresh : Nat → BitVec 8) :
    Yields (TminExit.Excused target tmin.inData) (Minimized tmin.inData)
        (tmin.minimize settings target loaded fresh) ∧
      ∀ predicate, tmin.Deterministic settings target predicate →
        ∃ final, tmin.minimize settings target loaded fresh = .ok final ∧
          Minimized tmin.inData final ∧
          ∀ i < final.data.length, predicate (final.data.eraseIdx i) = false := by
  constructor
  · have excused : Running settings target (fun _ _ => True)
        (TminExit.Excused target (tmin.allocate fresh).data)
        (tmin.allocate fresh) :=
      running_excused (loaded.allocate_fits fresh) rfl
    rw [loaded.allocate_data] at excused
    exact (minimize_yields loaded fresh excused).mono fun final holds =>
      holds.1
  · intro predicate deterministic
    have running : Running settings target (fun mem res => res = predicate mem)
        (fun _ => False) (tmin.allocate fresh) :=
      deterministic.running rfl rfl
    obtain ⟨final, returned, minimized, answers⟩ :=
      (minimize_yields loaded fresh running).returns
    refine ⟨final, returned, minimized, fun i inside => ?_⟩
    exact (answers _ (minimized.refused i inside)).symm

def hangSettings : TminSettings where
  hangMode := true
  exactMode := false
  edgesOnly := false
  maskBitmap := none
  mapSize := 8
  hash64 := fun _ _ => 0#64

/-- A target that hangs on the byte 5. -/
def fiveHangs : TminTarget := fun _ mem => {
  ret := if 5#8 ∈ mem then .tmout else .ok
  stopSoon := false
  traceBits := fun _ => 0#8 }

/-- An input of three bytes, after the first run. -/
def hangingInput : Tmin where
  inData := [7#8, 5#8, 9#8]
  inLen := 3
  tmpBuf := []
  crashMode := false
  origCksum := 0#64
  missedHangs := 0
  missedCrashes := 0
  missedPaths := 0
  runs := [([7#8, 5#8, 9#8], true)]

theorem hangingInput_loaded : hangingInput.Loaded := ⟨rfl, by decide, by decide⟩

theorem minimize_minimized_hang :
    ∃ final, hangingInput.minimize hangSettings fiveHangs hangingInput_loaded
        (fun _ => 0#8) = .ok final ∧
      Minimized [7#8, 5#8, 9#8] final ∧
      ∀ i < final.data.length, decide (5#8 ∈ final.data.eraseIdx i) = false := by
  refine (minimize_minimized hangingInput_loaded fun _ => 0#8).2
    (fun mem => decide (5#8 ∈ mem)) ?_
  intro now _ _ mem
  by_cases hangs : 5#8 ∈ mem
  · refine ⟨(now.answer mem true).1, ?_⟩
    simp [tminRunTarget, fiveHangs, hangSettings, hangs, answer]
  · refine ⟨({ now with missedHangs := now.missedHangs + 1 }.answer mem false).1, ?_⟩
    simp [tminRunTarget, fiveHangs, hangSettings, hangs, answer]

end Tmin

end AFLPlusPlus
