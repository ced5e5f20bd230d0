import AFLPlusPlus.Config
import AFLPlusPlus.Support.EarlyExit
import AFLPlusPlus.Support.Stores
import Mathlib.Algebra.Order.Ring.Nat

/-!
# Replacements of the input-to-state stage

Every attempt of the stage writes something into `buf` and has it executed by
`its_fuzz`.  What has found something is to be copied to `cbuf`, which is made
of the memory in which `check_if_text` looks at a new entry of the queue.
-/

namespace AFLPlusPlus.Redqueen

def aflTxtMinLen : Nat := 12

/-- The calls of `its_fuzz`: for a number that is written as text, for the bytes
of a value, for the bytes in front of a difference, for hexadecimal digits read
as bytes (with a further attempt of the same round or without), for bytes
written as hexadecimal digits, and for the bytes of one of the other
transformations. -/
inductive Site where
  | number
  | value
  | direct
  | fromDigits (retried : Bool)
  | toDigits
  | transform
  deriving DecidableEq

def Site.Copies : Site → Prop
  | .value | .fromDigits false | .transform => True
  | _ => False

instance (site : Site) : Decidable site.Copies := by
  cases site with
  | fromDigits retried => cases retried <;> unfold Site.Copies <;> infer_instance
  | _ => unfold Site.Copies; infer_instance

/-- What an execution comes to: `common_fuzz_stuff` returns 1, or
`save_if_interesting` keeps nothing, a new entry of the queue, or only a
crash. -/
inductive ItsOutcome where
  | aborts
  | nothing
  | queued
  | crash
  deriving DecidableEq

/-- A replacement that found something, at the time it did. -/
structure Find where
  site : Site
  queued : Bool
  offset : Nat
  bytes : List (BitVec 8)

/-- The replacement can be relied on: it is copied, and the entry, if there is
one, is too short for `check_if_text` to be read. -/
def Find.Kept (len : Nat) (find : Find) : Prop :=
  find.site.Copies ∧ (find.queued = true → len < aflTxtMinLen)

instance (len : Nat) (find : Find) : Decidable (find.Kept len) :=
  inferInstanceAs (Decidable (_ ∧ _))

/-- The memory that the stage writes to, with what it goes by, and all that was
found. -/
structure ItsState where
  buf : Buffer
  cbuf : Buffer
  outScratch : Buffer
  status : Nat
  execs : Nat
  finds : List Find

/-- The memory with one replacement after the other. -/
def overlay (memory : Buffer) (finds : List Find) : Buffer :=
  finds.foldl (fun memory find => memory.storeBytes find.offset find.bytes)
    memory

/-- What `check_if_text` leaves of `in_scratch_buf` after it has read the file
of an entry. -/
def checkIfText (scratch : Buffer) (file : List (BitVec 8)) : Buffer :=
  if file.length < aflTxtMinLen then scratch
  else
    let len := if maxFile ≤ file.length then maxFile - 1 else file.length
    (scratch.storeBytes 0 (file.take len)).storeBytes len [0#8]

/-- A function of the stage, which leaves early with `return 1`. -/
abbrev Its (Value : Type) := EarlyExit ItsState Value

/-- The floating-point operations of the processor. -/
structure FloatUnit where
  addOne32 : BitVec 32 → BitVec 32
  subOne32 : BitVec 32 → BitVec 32
  addOne64 : BitVec 64 → BitVec 64
  subOne64 : BitVec 64 → BitVec 64
  narrow : BitVec 64 → BitVec 32

/-- The test case with what the stage goes by, what its executions come to, in
their order, and what an array holds before it is written. -/
structure ItsEnvironment where
  len : Nat
  orig : Buffer
  isAscii : Bool
  cmplogEnableTransform : Bool
  cmplogEnableArith : Bool
  lvl : Nat
  outcome : Nat → List (BitVec 8) → ItsOutcome
  float : FloatUnit
  unwritten : Nat → Buffer

def storeBuf (offset : Nat) (bytes : List (BitVec 8)) : Its Unit :=
  modify fun its => { its with buf := its.buf.storeBytes offset bytes }

def setStatus (status : Nat) : Its Unit := modify fun its => { its with status }

/-- The copy to `cbuf` that follows an execution with a find. -/
def ItsState.combine (offset count : Nat) (its : ItsState) : ItsState :=
  if its.status = 1 then
    { its with
      cbuf := its.cbuf.storeBytes offset (its.buf.loadBytes offset count) }
  else its

def combine (offset count : Nat) : Its Unit := modify (ItsState.combine offset count)

namespace ItsEnvironment

variable (afl : ItsEnvironment)

/-- The state after an execution that found something. -/
def found (input : Buffer) (site : Site) (queued : Bool) (offset count : Nat)
    (its : ItsState) : ItsState :=
  { its with
    status := 1
    execs := its.execs + 1
    cbuf :=
      if queued then checkIfText its.cbuf (input.loadBytes 0 afl.len)
      else its.cbuf
    finds := its.finds ++ [⟨site, queued, offset, input.loadBytes offset count⟩] }

/-- `its_fuzz`, on an input that has `count` new bytes at `offset`. -/
def itsFuzz (input : Buffer) (site : Site) (offset count : Nat) : Its Unit :=
  OptionT.mk fun its =>
    match afl.outcome its.execs (input.loadBytes 0 afl.len) with
    | .aborts => (none, { its with execs := its.execs + 1 })
    | .nothing => (some (), { its with status := 2, execs := its.execs + 1 })
    | .queued => (some (), afl.found input site true offset count its)
    | .crash => (some (), afl.found input site false offset count its)

/-- The new bytes are written to `buf` and executed. -/
def attempt (site : Site) (offset : Nat) (bytes : List (BitVec 8)) : Its Unit := do
  storeBuf offset bytes
  let its ← get
  afl.itsFuzz its.buf site offset bytes.length

/-- As long as all that is found can be relied on, `cbuf` is the test case with
all replacements. -/
def Faithful (its : ItsState) : Prop :=
  (∀ find ∈ its.finds, find.Kept afl.len) →
    ∀ i < afl.len, its.cbuf i = overlay afl.orig its.finds i

def Pending (offset count : Nat) (its : ItsState) : Prop :=
  afl.Faithful (its.combine offset count)

variable {afl} {its : ItsState} {offset count : Nat}

theorem overlay_append (memory : Buffer) (finds : List Find) (find : Find) :
    overlay memory (finds ++ [find]) =
      (overlay memory finds).storeBytes find.offset find.bytes := by
  rw [overlay, List.foldl_append]
  rfl

theorem storeBytes_congr {memory other : Buffer} {i : Nat}
    (same : memory i = other i) (offset : Nat) (bytes : List (BitVec 8)) :
    memory.storeBytes offset bytes i = other.storeBytes offset bytes i := by
  rw [Buffer.storeBytes, Buffer.storeBytes, same]

theorem checkIfText_short {scratch : Buffer} {file : List (BitVec 8)}
    (short : file.length < aflTxtMinLen) : checkIfText scratch file = scratch :=
  if_pos short

theorem Faithful.pending (faithful : afl.Faithful its)
    (none : its.status ≠ 1) : afl.Pending offset count its := by
  rw [Pending, ItsState.combine, if_neg none]
  exact faithful

theorem Pending.faithful (pending : afl.Pending offset count its)
    (none : its.status ≠ 1) : afl.Faithful its := by
  rwa [Pending, ItsState.combine, if_neg none] at pending

theorem faithful_of_not_kept
    (lost : ¬∀ find ∈ its.finds, find.Kept afl.len) : afl.Faithful its :=
  fun kept => absurd kept lost

theorem pending_found (site : Site) (queued : Bool)
    (faithful : afl.Faithful its) :
    afl.Pending offset count
      (afl.found its.buf site queued offset count its) := by
  intro kept i inside
  change Buffer.storeBytes (if queued then _ else its.cbuf) offset
    (its.buf.loadBytes offset count) i = overlay afl.orig (its.finds ++ [_]) i
  rw [overlay_append]
  apply storeBytes_congr
  have before : its.cbuf i = overlay afl.orig its.finds i := by
    apply faithful _ i inside
    intro find member
    exact kept find (List.mem_append_left _ member)
  cases queued with
  | false => exact before
  | true =>
      have short := (kept _ (List.mem_append_right _ List.mem_cons_self)).2 rfl
      rw [if_pos rfl, checkIfText_short (by
        rw [Buffer.length_loadBytes]
        exact short)]
      exact before

/-- Nothing that can be relied on was found by the last execution. -/
def Unfound (afl : ItsEnvironment) (its : ItsState) : Prop :=
  (∀ find ∈ its.finds, find.Kept afl.len) → its.status ≠ 1

theorem Faithful.pending_of_unfound (faithful : afl.Faithful its)
    (unfound : afl.Unfound its) : afl.Pending offset count its := by
  by_cases kept : ∀ find ∈ its.finds, find.Kept afl.len
  · exact faithful.pending (unfound kept)
  · apply faithful_of_not_kept
    unfold ItsState.combine
    split
    · exact kept
    · exact kept

theorem Pending.faithful_of_unfound (pending : afl.Pending offset count its)
    (unfound : afl.Unfound its) : afl.Faithful its := by
  intro kept
  exact pending.faithful (unfound kept) kept

open EarlyExit

theorem keeps_storeBuf (bytes : List (BitVec 8)) :
    Keeps afl.Faithful (storeBuf offset bytes) :=
  fun _ faithful => faithful

theorem keeps_setStatus (status : Nat) : Keeps afl.Faithful (setStatus status) :=
  fun _ faithful => faithful

theorem triple_combine :
    Triple (afl.Pending offset count) (Redqueen.combine offset count)
      (fun _ => afl.Faithful) afl.Faithful :=
  fun _ pending => pending

/-- The execution of what is in `buf`. -/
theorem triple_itsFuzz (site : Site) (input : Buffer) :
    Triple (fun its => input = its.buf ∧ afl.Faithful its)
      (afl.itsFuzz input site offset count)
      (fun _ => afl.Pending offset count) afl.Faithful := by
  intro its ⟨isBuf, faithful⟩
  subst isBuf
  unfold itsFuzz
  rw [OptionT.run_mk]
  cases afl.outcome its.execs (its.buf.loadBytes 0 afl.len) with
  | aborts => exact faithful
  | nothing =>
      have after : afl.Faithful
          { its with status := 2, execs := its.execs + 1 } := faithful
      exact after.pending (show (2 : Nat) ≠ 1 by decide)
  | queued => exact pending_found site true faithful
  | crash => exact pending_found site false faithful

theorem triple_itsFuzz_lost {site : Site} (lost : ¬site.Copies)
    (input : Buffer) :
    Triple afl.Faithful (afl.itsFuzz input site offset count)
      (fun _ its => afl.Faithful its ∧ afl.Unfound its) afl.Faithful := by
  intro its faithful
  unfold itsFuzz
  rw [OptionT.run_mk]
  have notKept : ∀ queued, ¬∀ find ∈
      (afl.found input site queued offset count its).finds, find.Kept afl.len := by
    intro queued kept
    exact lost (kept _ (List.mem_append_right _ List.mem_cons_self)).1
  cases afl.outcome its.execs (input.loadBytes 0 afl.len) with
  | aborts => exact faithful
  | nothing => exact ⟨faithful, fun _ => (by decide : (2 : Nat) ≠ 1)⟩
  | queued =>
      exact ⟨faithful_of_not_kept (notKept true),
        fun kept => absurd kept (notKept true)⟩
  | crash =>
      exact ⟨faithful_of_not_kept (notKept false),
        fun kept => absurd kept (notKept false)⟩

theorem triple_attempt (site : Site) (bytes : List (BitVec 8))
    (length : bytes.length = count) :
    Triple afl.Faithful (afl.attempt site offset bytes)
      (fun _ => afl.Pending offset count) afl.Faithful := by
  subst length
  apply Triple.bind (keeps_storeBuf bytes)
  intro _
  apply Triple.bind Triple.get
  intro its
  apply (triple_itsFuzz site its.buf).starting
  rintro _ ⟨rfl, faithful⟩
  exact ⟨rfl, faithful⟩

theorem triple_attempt_lost {site : Site} (lost : ¬site.Copies)
    (bytes : List (BitVec 8)) :
    Triple afl.Faithful (afl.attempt site offset bytes)
      (fun _ its => afl.Faithful its ∧ afl.Unfound its) afl.Faithful := by
  apply Triple.bind (keeps_storeBuf bytes)
  intro _
  apply Triple.bind (Keeps.get)
  intro its
  exact triple_itsFuzz_lost lost its.buf

end ItsEnvironment

end AFLPlusPlus.Redqueen
