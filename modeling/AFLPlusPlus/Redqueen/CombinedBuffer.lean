import AFLPlusPlus.Redqueen.RtnFuzz
import AFLPlusPlus.Redqueen.Stage

/-!
# The combined buffer

The loop of the input-to-state stage over the locations that were recorded
gathers what it finds in `cbuf`, which is to be the test case with all the
replacements that found something.
-/

namespace AFLPlusPlus.Redqueen

open EarlyExit

def cmpMapW : Nat := 65536

def cmplogFailMax : Nat := 96

def cmpTypeIns : Nat := 1

/-- The location as the loop meets it, without hits if its comparisons have been
tried too often. -/
def CmpLocation.checked (h : CmpLocation) : CmpLocation :=
  if cmplogFailMax ≤ h.faileds ∨ cmplogFailMax ≤ h.total then
    { h with hits := 0 }
  else h

namespace ItsEnvironment

variable (afl : ItsEnvironment)

def solveLocation (taint : List Tainted) (h : CmpLocation) : Its Unit :=
  if h.type = cmpTypeIns then afl.cmpFuzz h taint
  else
    onlyIf (afl.lvl &&& lvl1 ≠ 0 ∨
        afl.lvl &&& lvl3 ≠ 0 ∧ afl.cmplogEnableTransform = true) <|
      afl.rtnFuzz h taint

def solveLocations (taint : List Tainted) : List CmpLocation → Its Unit
  | [] => pure ()
  | h :: later => do
      onlyIf (h.hits ≠ 0) (afl.solveLocation taint h)
      solveLocations taint later

def insertionLoop (taint : List Tainted) (cmpMap : List CmpLocation) : Its Unit :=
  afl.solveLocations taint (cmpMap.map CmpLocation.checked)

/-- The state in which `cbuf` has been built from the test case. -/
def start (buf inScratch outScratch : Buffer) : ItsState where
  buf
  cbuf := inScratch.storeBytes 0 (afl.orig.loadBytes 0 afl.len)
  outScratch
  status := 0
  execs := 0
  finds := []

/-- The run of the loops, with the state at `exit_its`. -/
def runInsertion (taint : List Tainted) (cmpMap : List CmpLocation)
    (buf inScratch outScratch : Buffer) : Option Unit × ItsState :=
  (afl.insertionLoop taint cmpMap).run (afl.start buf inScratch outScratch)

/-- What the stage is left with: the loops on the bytes of its buffers, before
the memory that is behind them. -/
def insert (cmpMap : List CmpLocation) (behind inScratch outScratch : Buffer)
    (taint : List Tainted) (buf orig : List (BitVec 8)) : Inserted :=
  let run := { afl with
    len := orig.length
    orig := behind.storeBytes 0 orig }.runInsertion taint cmpMap
      (behind.storeBytes 0 buf) inScratch outScratch
  { buf := run.2.buf.loadBytes 0 orig.length
    cbuf := run.2.cbuf.loadBytes 0 orig.length
    aborts := run.1.isNone }

variable {afl}

theorem keeps_solveLocations (taint : List Tainted)
    (locations : List CmpLocation) :
    Keeps afl.Faithful (afl.solveLocations taint locations) := by
  induction locations with
  | nil => exact Keeps.pure ()
  | cons h later induction =>
      apply Keeps.bind
      · apply Keeps.onlyIf
        intro _
        apply Keeps.ite
        · intro _
          exact keeps_cmpFuzz h taint
        · intro _
          apply Keeps.onlyIf
          intro _
          exact keeps_rtnFuzz h taint
      · intro _
        exact induction

theorem faithful_start (buf inScratch outScratch : Buffer) :
    afl.Faithful (afl.start buf inScratch outScratch) := by
  intro _ i inside
  have spells := Buffer.spells_storeBytes inScratch 0
    (afl.orig.loadBytes 0 afl.len) i (afl.orig i) (by
      simp [Buffer.loadBytes, inside])
  rwa [Nat.zero_add] at spells

theorem faithful_runInsertion (taint : List Tainted)
    (cmpMap : List CmpLocation) (buf inScratch outScratch : Buffer) :
    afl.Faithful (afl.runInsertion taint cmpMap buf inScratch outScratch).2 :=
  (keeps_solveLocations taint _).run (faithful_start buf inScratch outScratch)

theorem Faithful.loadBytes_eq {its : ItsState} (faithful : afl.Faithful its)
    (kept : ∀ find ∈ its.finds, find.Kept afl.len) :
    its.cbuf.loadBytes 0 afl.len =
      (overlay afl.orig its.finds).loadBytes 0 afl.len := by
  apply List.map_congr_left
  intro i inside
  rw [Nat.zero_add]
  exact faithful kept i (List.mem_range.mp inside)

/-- In a run where all that is found can be relied on, `cbuf` is in the end the
test case with all replacements in their order. -/
theorem runInsertion_combined (afl : ItsEnvironment) (taint : List Tainted)
    (cmpMap : List CmpLocation) (buf inScratch outScratch : Buffer)
    (kept : ∀ find ∈
      (afl.runInsertion taint cmpMap buf inScratch outScratch).2.finds,
        find.Kept afl.len) :
    (afl.runInsertion taint cmpMap buf inScratch outScratch).2.cbuf.loadBytes 0
        afl.len =
      (overlay afl.orig
        (afl.runInsertion taint cmpMap buf inScratch
          outScratch).2.finds).loadBytes 0 afl.len :=
  (faithful_runInsertion taint cmpMap buf inScratch outScratch).loadBytes_eq
    kept

/-- The same for the stage, of which the loops are a part. -/
theorem insert_combined {cmpMap : List CmpLocation} {behind inScratch outScratch : Buffer}
    {taint : List Tainted} {buf orig : List (BitVec 8)} :
    let run := { afl with
      len := orig.length
      orig := behind.storeBytes 0 orig }.runInsertion taint cmpMap
        (behind.storeBytes 0 buf) inScratch outScratch
    (∀ find ∈ run.2.finds, find.Kept orig.length) →
      (afl.insert cmpMap behind inScratch outScratch taint buf orig).cbuf =
        (overlay (behind.storeBytes 0 orig) run.2.finds).loadBytes 0 orig.length :=
  fun kept => (faithful_runInsertion taint cmpMap _ _ _).loadBytes_eq kept

/-- Locations that were not hit are skipped. -/
theorem runInsertion_unused (taint : List Tainted) (h : CmpLocation)
    {unused : CmpLocation} (unhit : unused.hits = 0) (count : Nat)
    (buf inScratch outScratch : Buffer) :
    afl.runInsertion taint (h :: List.replicate count unused) buf inScratch
        outScratch =
      afl.runInsertion taint [h] buf inScratch outScratch := by
  have skipped : afl.solveLocations taint
      ((List.replicate count unused).map CmpLocation.checked) = pure () := by
    have checked : unused.checked.hits = 0 := by
      unfold CmpLocation.checked
      split
      · rfl
      · exact unhit
    rw [List.map_replicate]
    induction count with
    | zero => rfl
    | succ count induction =>
        rw [List.replicate_succ, solveLocations, induction, onlyIf,
          if_neg (not_not.mpr checked)]
        rfl
  unfold runInsertion insertionLoop
  rw [List.map_cons, solveLocations, skipped]
  rfl

/-- Twelve zero bytes, of which the first execution finds something. -/
def firstFinds (outcome : ItsOutcome) : ItsEnvironment where
  len := 12
  orig := fun _ => 0#8
  isAscii := false
  cmplogEnableTransform := true
  cmplogEnableArith := false
  lvl := lvl3
  outcome := fun execs _ => if execs = 0 then outcome else .nothing
  float := ⟨id, id, id, id, fun value => value.setWidth 32⟩
  unwritten := fun _ _ => 0#8

/-- A location with a call that compares the first byte, under a mask, with 7,
or one that was not hit. -/
def maskedCall (hits : Nat) : CmpLocation where
  hits
  shape := 0
  type := 2
  attr := 0
  log := fun _ => ⟨0, 0, 0, 0⟩
  origLog := fun _ => ⟨0, 0, 0, 0⟩
  fnLog := fun _ => ⟨fun _ => 3#8, fun _ => 7#8⟩
  origFnLog := fun _ => ⟨fun _ => 2#8, fun _ => 7#8⟩
  faileds := 0
  total := 0

def maskedMap : List CmpLocation :=
  maskedCall 1 :: List.replicate (cmpMapW - 1) (maskedCall 0)

/-- The run on this map, from bytes that are all 1. -/
def maskedRun (outcome : ItsOutcome) : ItsState :=
  ((firstFinds outcome).runInsertion [⟨0, 12⟩] maskedMap (fun _ => 1#8)
    (fun _ => 0#8) fun _ => 0#8).2

theorem maskedRun_eq (outcome : ItsOutcome) :
    maskedRun outcome =
      ((firstFinds outcome).runInsertion [⟨0, 12⟩] [maskedCall 1] (fun _ => 1#8)
        (fun _ => 0#8) fun _ => 0#8).2 := by
  unfold maskedRun maskedMap
  rw [runInsertion_unused _ _ rfl]

theorem maskedRun_kept : ∀ find ∈ (maskedRun .crash).finds,
    find.Kept (firstFinds .crash).len := by
  rw [maskedRun_eq]
  decide

theorem runInsertion_combined_crash :
    (maskedRun .crash).cbuf.loadBytes 0 (firstFinds .crash).len =
      (overlay (firstFinds .crash).orig (maskedRun .crash).finds).loadBytes 0
        (firstFinds .crash).len := by
  have kept := maskedRun_kept
  rw [maskedRun] at kept ⊢
  exact runInsertion_combined (firstFinds .crash) [⟨0, 12⟩] maskedMap
    (fun _ => 1#8) (fun _ => 0#8) (fun _ => 0#8) kept

/-- An entry that is found overwrites all that has been combined. -/
theorem runInsertion_queued :
    (maskedRun .queued).finds.map (fun find => (find.offset, find.bytes)) =
        [(0, [5#8])] ∧
      (maskedRun .queued).cbuf.loadBytes 0 12 = 5#8 :: List.replicate 11 1#8 ∧
      (maskedRun .queued).cbuf.loadBytes 0 (firstFinds .queued).len ≠
        (overlay (firstFinds .queued).orig (maskedRun .queued).finds).loadBytes
          0 (firstFinds .queued).len := by
  rw [maskedRun_eq]
  decide

end ItsEnvironment

end AFLPlusPlus.Redqueen
