import AFLPlusPlus.Instrumentation.CompareTransform
import AFLPlusPlus.Support.Stores
import AFLPlusPlus.Support.Transitions

/-!
# When the folded bytes are constant

A run of the module is any sequence of pointer assignments, writes, copies and
comparisons.  Along it we keep book of the calls whose folded argument is still
intact: a global array whose bytes no step has written, or a buffer into which
the bytes have just been copied.
-/

namespace AFLPlusPlus

namespace CompareTransform

open Buffer

/-- A step of a run.  Control flow may bring the calls of the text in any order,
a value may get any pointer, and all other code may write anything. -/
inductive Action where
  | assign (id pointer : Nat)
  | write (address : Nat) (bytes : List (BitVec 8))
  | memcpy (position len : Nat)
  | compare (position : Nat)

/-- The memory and the pointers that the values have. -/
structure Machine where
  memory : Buffer
  values : Nat → Nat

/-- A machine, and the positions of the calls whose argument is intact. -/
structure Tracked where
  machine : Machine
  intact : Nat → Bool

/-- The pointer of an operand, for an address of every global array. -/
def Machine.address (machine : Machine) (layout : Nat → Nat) : Operand → Nat
  | .globalGep index offset => layout index + offset
  | .value id => machine.values id

namespace ScannedModule

variable {width : Nat} {m : ScannedModule width} (strings : m.StringInfo)
  (layout : Nat → Nat) {action : Action} {bytes : List (BitVec 8)} {machine next : Machine}
  {argument : Operand}

variable (m) in
/-- Constant arrays lie in memory that cannot be written. -/
def writable (address len : Nat) : Bool :=
  m.globals.zipIdx.all fun (array, index) =>
    !array.isConstant ||
      decide (Apart (layout index) array.initializer.bytes.length address len)

variable (m) in
/-- A write to constant memory ends the run. -/
def store (machine : Machine) (address : Nat) (bytes : List (BitVec 8)) :
    Option Machine :=
  if m.writable layout address bytes.length then
    some { machine with memory := machine.memory.storeBytes address bytes }
  else none

variable (m) in
/-- What a step does to the machine. -/
def stepMachine (machine : Machine) : Action → Option Machine
  | .assign id pointer =>
      some { machine with values := Function.update machine.values id pointer }
  | .write address bytes => m.store layout machine address bytes
  | .memcpy position len =>
      match m.text[position]? with
      | some (.memcpy dst src) =>
          m.store layout machine (machine.address layout dst)
            (machine.memory.loadBytes (machine.address layout src) len)
      | _ => none
  | .compare position =>
      match m.text[position]? with
      | some (.compare _ _ _) => some machine
      | _ => none

/-- Whether an argument is still intact after a step, when it was so or not
before. -/
def keepsIntact (machine : Machine) (argument : Operand)
    (bytes : List (BitVec 8)) (intact : Bool) : Action → Bool
  | .assign id _ => intact && argument ≠ .value id
  | .write address stored =>
      intact && decide (Apart (machine.address layout argument) bytes.length
        address stored.length)
  | .memcpy position len =>
      match m.text[position]? with
      | some (.memcpy dst src) =>
          (dst = argument && bytes.length ≤ len &&
            machine.memory.loadBytes (machine.address layout src)
              bytes.length = bytes) ||
          (intact && decide (Apart (machine.address layout argument)
            bytes.length (machine.address layout dst) len))
      | _ => intact
  | .compare _ => intact

/-- A step with the book that is kept. -/
def step (action : Action) (tracked : Tracked) : Option Tracked :=
  (m.stepMachine layout tracked.machine action).map fun machine => {
    machine
    intact := fun position =>
      match folded strings position with
      | some (argument, bytes) =>
          m.keepsIntact layout tracked.machine argument bytes
            (tracked.intact position) action
      | none => false }

/-- At first the arrays hold their initializers. -/
def start (machine : Machine) : Tracked where
  machine := machine
  intact := fun position =>
    match folded strings position with
    | some (argument, bytes) =>
        bytes.isPrefixOf (m.initialBytes argument)
    | none => false

/-- The constant arrays hold their initializers. -/
def ConstantsHold (m : ScannedModule width) (layout : Nat → Nat)
    (memory : Buffer) : Prop :=
  ∀ (index : Nat) (array : GlobalVariable), m.globals[index]? = some array →
    array.isConstant = true →
    Spells memory (layout index) array.initializer.bytes

theorem store_eq {address : Nat}
    (stored : m.store layout machine address bytes = some next) :
    next = { machine with memory := machine.memory.storeBytes address bytes } ∧
      ∀ (index : Nat) (array : GlobalVariable),
        m.globals[index]? = some array → array.isConstant = true →
        Apart (layout index) array.initializer.bytes.length address
          bytes.length := by
  unfold store at stored
  split at stored
  · rename_i allowed
    refine ⟨(Option.some.inj stored).symm, fun index array entry constant => ?_⟩
    have member : (array, index) ∈ m.globals.zipIdx :=
      List.mem_zipIdx_iff_getElem?.mpr entry
    have either := List.all_eq_true.mp allowed _ member
    simp only [constant, Bool.not_true, Bool.false_or] at either
    exact of_decide_eq_true either
  · cases stored

theorem ConstantsHold.store {address : Nat}
    (holds : m.ConstantsHold layout machine.memory)
    (stored : m.store layout machine address bytes = some next) :
    m.ConstantsHold layout next.memory := by
  obtain ⟨rfl, apart⟩ := store_eq layout stored
  exact fun index array entry constant =>
    (holds index array entry constant).storeBytes
      (apart index array entry constant)

theorem ConstantsHold.step (holds : m.ConstantsHold layout machine.memory)
    (stepped : m.stepMachine layout machine action = some next) :
    m.ConstantsHold layout next.memory := by
  cases action with
  | assign id pointer =>
      obtain rfl := Option.some.inj stepped
      exact holds
  | write address bytes => exact holds.store layout stepped
  | memcpy position len =>
      simp only [stepMachine] at stepped
      split at stepped
      · exact holds.store layout stepped
      · cases stepped
  | compare position =>
      simp only [stepMachine] at stepped
      split at stepped
      · obtain rfl := Option.some.inj stepped
        exact holds
      · cases stepped

/-- An argument that is intact after a step holds its bytes. -/
theorem spells_of_keepsIntact {intact : Bool}
    (holds : intact = true → Spells machine.memory
      (machine.address layout argument) bytes)
    (stepped : m.stepMachine layout machine action = some next)
    (kept : m.keepsIntact layout machine argument bytes intact action =
      true) :
    Spells next.memory (next.address layout argument) bytes := by
  cases action with
  | assign id pointer =>
      obtain rfl := Option.some.inj stepped
      simp only [keepsIntact, Bool.and_eq_true, decide_eq_true_iff] at kept
      have same : Machine.address
          { machine with values := Function.update machine.values id pointer }
          layout argument = machine.address layout argument := by
        cases argument with
        | globalGep index offset => rfl
        | value other =>
            refine Function.update_of_ne ?_ pointer machine.values
            rintro rfl
            exact kept.2 rfl
      rw [same]
      exact holds kept.1
  | write address stored =>
      obtain ⟨rfl, _⟩ := store_eq layout stepped
      simp only [keepsIntact, Bool.and_eq_true, decide_eq_true_iff] at kept
      exact (holds kept.1).storeBytes kept.2
  | memcpy position len =>
      simp only [stepMachine] at stepped
      simp only [keepsIntact] at kept
      cases call : m.text[position]? with
      | none =>
          rw [call] at stepped
          cases stepped
      | some call' =>
          rw [call] at stepped kept
          cases call' with
          | compare _ _ _ => cases stepped
          | memcpy dst src =>
              obtain ⟨rfl, _⟩ := store_eq layout stepped
              simp only [Bool.or_eq_true, Bool.and_eq_true,
                decide_eq_true_iff] at kept
              rcases kept with ⟨⟨rfl, short⟩, copied⟩ | ⟨before, apart⟩
              · refine (spells_storeBytes machine.memory _ _).shorter ?_
                have starts := loadBytes_prefix machine.memory
                  (machine.address layout src) short
                rwa [copied] at starts
              · refine (holds before).storeBytes ?_
                rw [length_loadBytes]
                exact apart
  | compare position =>
      simp only [stepMachine] at stepped
      split at stepped
      · obtain rfl := Option.some.inj stepped
        exact holds kept
      · cases stepped

variable (m) in
/-- The operand points into a constant array, before a NUL of it. -/
def TerminatedLiteral (operand : Operand) : Prop :=
  ∃ index offset array, operand = .globalGep index offset ∧
    m.globals[index]? = some array ∧ array.isConstant = true ∧
    0#8 ∈ m.initialBytes operand

theorem TerminatedLiteral.info {operand : Operand}
    (literal : m.TerminatedLiteral operand) :
    strings.info operand ≠ none := by
  obtain ⟨index, offset, ⟨isConstant, init⟩, rfl, entry, constant, nul⟩ :=
    literal
  obtain rfl : isConstant = true := constant
  have bytes : m.initialBytes (.globalGep index offset) =
      init.bytes.drop offset := by
    simp only [initialBytes, initializer, entry, Option.map_some,
      Option.getD_some]
  rw [bytes] at nul
  have inside : offset ≤ init.bytes.length := by
    by_contra outside
    rw [List.drop_of_length_le (by omega)] at nul
    cases nul
  rw [strings.documented]
  simp only [constantString, entry]
  cases init with
  | none =>
      rw [Initializer.bytes, List.drop_nil] at nul
      cases nul
  | dataArray array =>
      simp only [inside, if_true]
      exact Option.some_ne_none _
  | zeros length =>
      simp only [inside, if_true]
      exact Option.some_ne_none _

private theorem terminated_prefix (nul : 0#8 ∈ bytes) :
    bytes.takeWhile (· ≠ 0#8) ++ [0#8] <+: bytes := by
  induction bytes with
  | nil => cases nul
  | cons byte bytes induction =>
      by_cases zero : byte = 0#8
      · subst byte
        simp
      · rw [List.takeWhile_cons_of_pos (by simpa using zero),
          List.cons_append, List.cons_prefix_cons]
        refine ⟨rfl, induction ?_⟩
        rcases List.mem_cons.mp nul with same | later
        · exact absurd same.symm zero
        · exact later

theorem tmpConstStr_starts (call : SelectedCall width)
    {constStr : List (BitVec 8)}
    (transformed : call.tmpConstStr = some constStr) (plain : 0#8 ∉ call.str) :
    constStr <+: call.str ++ [0#8] := by
  cases memcmp : call.callee.isMemcmp with
  | true =>
      unfold SelectedCall.tmpConstStr at transformed
      rw [memcmp] at transformed
      split at transformed
      · cases transformed
      · obtain rfl := Option.some.inj transformed
        exact List.prefix_append _ _
  | false =>
      have whole : call.text = call.str := by
        rw [SelectedCall.text, List.takeWhile_eq_self_iff]
        intro byte member
        rw [decide_eq_true_iff]
        rintro rfl
        exact plain member
      have same := call.tmpConstStr_string memcmp transformed
      rw [whole] at same
      exact same ▸ List.prefix_rfl

/-- The string that a literal argument is folded with is its own. -/
theorem constantArgument_literal {str1 str2 : Operand} {hasStr1 : Bool}
    {str : List (BitVec 8)} (constant : constantArgument strings str1 str2 =
      some (hasStr1, argument, str)) (literal : m.TerminatedLiteral argument) :
    str = (m.initialBytes argument).takeWhile (· ≠ 0#8) := by
  have found := literal.info strings
  unfold constantArgument at constant
  cases first : strings.info str1 with
  | some text =>
      rw [first] at constant
      cases constant
      exact strings.info_eq first
  | none =>
      rw [first] at constant
      cases second : strings.info str2 with
      | some text =>
          rw [second] at constant
          cases constant
          exact strings.info_eq second
      | none =>
          rw [second] at constant
          dsimp only at constant
          split at constant
          · cases constant
            exact absurd first found
          · split at constant
            · cases constant
              exact absurd second found
            · cases constant

theorem folded_literal {position : Nat}
    (folds : folded strings position = some (argument, bytes))
    (literal : m.TerminatedLiteral argument) :
    bytes <+: m.initialBytes argument := by
  unfold folded at folds
  split at folds
  · rename_i callee str1 str2 _
    split at folds
    · obtain ⟨⟨hasStr1, other, str⟩, constant, folds⟩ :=
        Option.bind_eq_some_iff.mp folds
      obtain ⟨constStr, transformed, folds⟩ :=
        Option.bind_eq_some_iff.mp folds
      cases folds
      have text := constantArgument_literal strings constant literal
      have plain : 0#8 ∉ str := by
        intro member
        rw [text] at member
        have nonzero := List.mem_takeWhile_imp member
        simp at nonzero
      refine (List.take_prefix _ _).trans
        ((tmpConstStr_starts _ transformed plain).trans ?_)
      obtain ⟨_, _, _, _, _, _, nul⟩ := literal
      rw [text]
      exact terminated_prefix nul
    · cases folds
  · cases folds

/-- The compiled bytes are what the argument's memory holds. -/
def FoldedHolds (machine : Machine) (position : Nat) : Prop :=
  ∀ argument bytes, folded strings position = some (argument, bytes) →
    Spells machine.memory (machine.address layout argument) bytes

/-- The argument of a call is a literal. -/
def FoldsLiteral (position : Nat) : Prop :=
  ∀ argument bytes, folded strings position = some (argument, bytes) →
    m.TerminatedLiteral argument

variable (m) in
/-- Every global array holds its initializer. -/
def Loaded (machine : Machine) : Prop :=
  ∀ (index : Nat) (array : GlobalVariable), m.globals[index]? = some array →
    Spells machine.memory (layout index) array.initializer.bytes

/-- The book is right. -/
structure Consistent (tracked : Tracked) : Prop where
  constants : m.ConstantsHold layout tracked.machine.memory
  intact : ∀ position, tracked.intact position = true →
    FoldedHolds strings layout tracked.machine position

theorem Loaded.spells (loaded : m.Loaded layout machine) (operand : Operand) :
    Spells machine.memory (machine.address layout operand)
      (m.initialBytes operand) := by
  cases operand with
  | value id => exact fun i byte found => by cases found
  | globalGep index offset =>
      simp only [initialBytes, initializer]
      cases entry : m.globals[index]? with
      | none =>
          rw [Option.map_none, Option.getD_none, Initializer.bytes,
            List.drop_nil]
          exact fun i byte found => by cases found
      | some array => exact (loaded index array entry).drop offset

theorem consistent_start (loaded : m.Loaded layout machine) :
    Consistent strings layout (start strings machine) := by
  refine ⟨fun index array entry _ => loaded index array entry, ?_⟩
  intro position intact argument bytes folds
  simp only [start, folds] at intact
  exact (loaded.spells layout argument).shorter
    (List.isPrefixOf_iff_prefix.mp intact)

theorem Consistent.step {tracked next : Tracked}
    (consistent : Consistent strings layout tracked)
    (stepped : step strings layout action tracked = some next) :
    Consistent strings layout next := by
  obtain ⟨machine, moved, rfl⟩ := Option.map_eq_some_iff.mp stepped
  refine ⟨consistent.constants.step layout moved, ?_⟩
  intro position intact argument bytes folds
  simp only [folds] at intact
  exact spells_of_keepsIntact layout
    (fun before => consistent.intact position before argument bytes folds)
    moved intact

/-- In a run that reaches a rewritten call only while its argument is a literal
or intact, the argument holds the compiled bytes at every such call. -/
theorem run_foldsConstants {machine : Machine}
    (loaded : m.Loaded layout machine) {actions : List Action}
    (meets : MovesMeet (step strings layout)
      (fun tracked action => ∀ position, action = .compare position →
        FoldsLiteral strings position ∨ tracked.intact position = true)
      actions (start strings machine)) :
    MovesMeet (step strings layout)
      (fun tracked action => ∀ position, action = .compare position →
        FoldedHolds strings layout tracked.machine position)
      actions (start strings machine) := by
  refine meets.of_invariant (Consistent strings layout)
    (fun _ _ _ consistent stepped => consistent.step strings layout stepped)
    ?_ (consistent_start strings layout loaded)
  intro action tracked consistent allowed position reached
  rcases allowed position reached with literal | intact
  · intro argument bytes folds
    have starts := folded_literal strings folds (literal argument bytes folds)
    obtain ⟨index, offset, array, rfl, entry, constant, _⟩ :=
      literal argument bytes folds
    have whole := consistent.constants index array entry constant
    refine (whole.drop offset).shorter ?_
    simpa only [initialBytes, initializer, entry, Option.map_some,
      Option.getD_some] using starts
  · exact consistent.intact position intact

/-- A buffer into which a literal is copied, and its comparison. -/
def copyThenCompare : ScannedModule 64 where
  globals := [⟨true, .dataArray [97#8, 98#8, 0#8]⟩]
  text := [.memcpy (.value 0) (.globalGep 0 0),
    .compare .strcmp (.value 0) (.value 1)]

def copyStrings : copyThenCompare.StringInfo :=
  ⟨copyThenCompare.constantString, fun _ => rfl⟩

/-- The literal at address 8, and pointers to 100 and 200. -/
def copyMachine : Machine where
  memory := fun address => [97#8, 98#8, 0#8].getD (address - 8) 0#8
  values := fun id => 100 + 100 * id

theorem copyMachine_loaded :
    copyThenCompare.Loaded (fun _ => 8) copyMachine := by
  intro index array entry
  match index with
  | 0 =>
      obtain rfl := Option.some.inj entry
      intro i byte found
      change [97#8, 98#8, 0#8].getD (8 + i - 8) 0#8 = byte
      rw [Nat.add_sub_cancel_left]
      exact (List.getD_eq_getElem?_getD ..).trans (congrArg (·.getD 0#8) found)
  | _ + 1 => cases entry

theorem run_foldsConstants_copy :
    MovesMeet (step copyStrings fun _ => 8)
      (fun tracked action => ∀ position, action = .compare position →
        FoldedHolds copyStrings (fun _ => 8) tracked.machine position)
      [.memcpy 0 3, .compare 1] (start copyStrings copyMachine) := by
  refine run_foldsConstants copyStrings (fun _ => 8) copyMachine_loaded ?_
  refine ⟨fun position impossible => (nomatch impossible), ?_⟩
  rintro _ ⟨⟩
  refine ⟨?_, fun _ _ => trivial⟩
  rintro _ ⟨⟩
  exact .inr (by decide)

/-- The buffer is written between the copy and the comparison. -/
theorem run_not_foldsConstants_write :
    folded copyStrings 1 = some (.value 0, [97#8, 98#8, 0#8]) ∧
      ∃ reached, runMoves (step copyStrings fun _ => 8)
          [.memcpy 0 3, .write 100 [120#8], .compare 1]
          (start copyStrings copyMachine) = some reached ∧
        ¬FoldedHolds copyStrings (fun _ => 8) reached.machine 1 := by
  have folds : folded copyStrings 1 =
      some (.value 0, [97#8, 98#8, 0#8]) := by
    decide
  refine ⟨folds, _, rfl, fun holds => ?_⟩
  have first := holds _ _ folds 0 97#8 rfl
  exact absurd first (by decide)

end ScannedModule

end CompareTransform

end AFLPlusPlus
