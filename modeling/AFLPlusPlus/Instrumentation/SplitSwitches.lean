import AFLPlusPlus.Support.Loops
import Mathlib.Data.Fintype.Card
import Mathlib.Data.List.Find

/-!
# Splitting switches

The pass replaces a switch on more than eight bits by a tree of branches, each
of which looks at one byte of the value.
-/

namespace AFLPlusPlus

/-- A case of a switch over `width` bits. -/
structure CaseExpr (width : Nat) (Block : Type) where
  val : BitVec width
  bb : Block

/-- The switch instruction. -/
structure SwitchInst (width : Nat) (Block : Type) where
  cases : List (CaseExpr width Block)
  defaultDest : Block

/-- The blocks that `switchConvert` builds; what is in no branch goes to the
new default block. -/
inductive SwitchNode (Block : Type)
  /-- the block of a case -/
  | jump (bb : Block)
  /-- go to `found` if the byte at `index` is `byte`, else to the default -/
  | byteMatch (index : Nat) (byte : BitVec 8) (found : SwitchNode Block)
  /-- go left if the byte at `index` is less than `pivot` -/
  | byteBelow (index : Nat) (pivot : BitVec 8) (left right : SwitchNode Block)

variable {width : Nat} {Block : Type}

namespace SwitchInst

/-- Where the cases send a value. -/
def dispatch (cases : List (CaseExpr width Block)) (newDefault : Block)
    (value : BitVec width) : Block :=
  match cases.find? (fun case_ => case_.val = value) with
  | some case_ => case_.bb
  | none => newDefault

/-- Where the switch instruction sends a value. -/
def dest (switch : SwitchInst width Block) (value : BitVec width) : Block :=
  dispatch switch.cases switch.defaultDest value

end SwitchInst

/-- A logical shift by `8 * index` and a truncation to a byte. The shift has
no result when it is by the whole width or more. -/
def shiftTrunc (index : Nat) (value : BitVec width) : Option (BitVec 8) :=
  if index * 8 < width then some ((value >>> (index * 8)).setWidth 8) else none

/-- Where a tree sends a value. -/
def SwitchNode.eval (newDefault : Block) (value : BitVec width) :
    SwitchNode Block → Option Block
  | .jump bb => some bb
  | .byteMatch index byte found =>
      match shiftTrunc index value with
      | none => none
      | some actual =>
          if actual = byte then found.eval newDefault value
          else some newDefault
  | .byteBelow index pivot left right =>
      match shiftTrunc index value with
      | none => none
      | some actual =>
          if actual < pivot then left.eval newDefault value
          else right.eval newDefault value

/-- `(Case.Val->getZExtValue() >> (i * 8)) & 0xFF` -/
def CaseExpr.byte (case_ : CaseExpr width Block) (i : Nat) : BitVec 8 :=
  (case_.val.setWidth 64 >>> (i * 8)).setWidth 8

/-- `byteSets[i]`: the bytes of the cases at `i`, in increasing order. -/
def byteSet (cases : List (CaseExpr width Block)) (i : Nat) : List (BitVec 8) :=
  (cases.map (·.byte i)).dedup.mergeSort (fun first second => first ≤ second)

/-- `smallestIndex` and `smallestSize` -/
structure Smallest where
  index : Nat
  size : Nat

/-- One round of the search for the smallest set. -/
def Smallest.round (cases : List (CaseExpr width Block))
    (bytesChecked : List Bool) (i : Nat) (smallest : Smallest) : Smallest :=
  if bytesChecked.getD i false = true then smallest
  else if (byteSet cases i).length < smallest.size then
    { index := i, size := (byteSet cases i).length }
  else smallest

def findSmallest (cases : List (CaseExpr width Block))
    (bytesChecked : List Bool) : Smallest :=
  forRange (Smallest.round cases bytesChecked) bytesChecked.length
    { index := 0, size := 257 }

/-- `fuel` bounds the depth of the recursion. There is no result without fuel,
for no cases, and where an assertion fails. -/
def switchConvert : Nat → List (CaseExpr width Block) → List Bool →
    Option (SwitchNode Block)
  | 0, _, _ => none
  | _ + 1, [], _ => none
  | fuel + 1, case_ :: rest, bytesChecked =>
      let cases := case_ :: rest
      let smallest := findSmallest cases bytesChecked
      if ¬ (8 ≤ width ∧ width ≤ 64) then none
      else if bytesChecked.getD smallest.index false ≠ false then none
      else if smallest.size = 1 then
        let byte := (byteSet cases smallest.index).headD 0#8
        let bytesChecked := bytesChecked.set smallest.index true
        if bytesChecked.all id then
          if cases.length = 1 then
            some (.byteMatch smallest.index byte (.jump case_.bb))
          else none
        else (switchConvert fuel cases bytesChecked).map
          (.byteMatch smallest.index byte)
      else
        let byteVector := byteSet cases smallest.index
        let pivot := byteVector.getD (byteVector.length / 2) 0#8
        let isLeft := fun case_ : CaseExpr width Block =>
          decide (case_.byte smallest.index < pivot)
        match switchConvert fuel (cases.filter isLeft) bytesChecked,
          switchConvert fuel (cases.filter (fun case_ => !isLeft case_))
            bytesChecked with
        | some left, some right =>
            some (.byteBelow smallest.index pivot left right)
        | _, _ => none

/-- What stands at the end of the block afterwards. -/
inductive SwitchTerminator (width : Nat) (Block : Type)
  | switch (inst : SwitchInst width Block)
  | tree (node : SwitchNode Block) (newDefault : Block)

def SwitchTerminator.dest (terminator : SwitchTerminator width Block)
    (value : BitVec width) : Option Block :=
  match terminator with
  | .switch inst => some (inst.dest value)
  | .tree node newDefault => node.eval newDefault value

/-- The body of the loop of `splitSwitches`. -/
def splitSwitch (fuel : Nat) (inst : SwitchInst width Block) :
    Option (SwitchTerminator width Block) :=
  if inst.cases.length < 1 ∨ width ≤ 8 then some (.switch inst)
  else
    let bytesChecked := List.replicate ((7 + width) / 8) false
    match switchConvert fuel inst.cases bytesChecked with
    | some node => some (.tree node inst.defaultDest)
    | none => none

/-- The byte of a value at `index`. -/
def valueByte (index : Nat) (value : BitVec width) : BitVec 8 :=
  (value >>> (index * 8)).setWidth 8

variable {case_ : CaseExpr width Block} {index : Nat}

theorem shiftTrunc_of_inside (inside : index < (7 + width) / 8) (value : BitVec width) :
    shiftTrunc index value = some (valueByte index value) :=
  if_pos (by omega)

theorem getLsbD_valueByte (index : Nat) (value : BitVec width) (bit : Nat) :
    (valueByte index value).getLsbD bit =
      (decide (bit < 8) && value.getLsbD (index * 8 + bit)) := by
  simp [valueByte]

theorem CaseExpr.byte_eq_valueByte (fits : width ≤ 64)
    (case_ : CaseExpr width Block) (index : Nat) :
    case_.byte index = valueByte index case_.val := by
  apply BitVec.eq_of_getLsbD_eq
  intro bit inside
  rw [getLsbD_valueByte]
  simp only [CaseExpr.byte, BitVec.getLsbD_setWidth, BitVec.getLsbD_ushiftRight]
  by_cases wide : index * 8 + bit < 64
  · simp [wide]
  · have outside : case_.val.getLsbD (index * 8 + bit) = false :=
      BitVec.getLsbD_of_ge _ _ (by omega)
    simp [outside]

theorem eq_of_valueBytes {first second : BitVec width}
    (same : ∀ index < (7 + width) / 8,
      valueByte index first = valueByte index second) : first = second := by
  apply BitVec.eq_of_getLsbD_eq
  intro bit inside
  have atBit (value : BitVec width) : value.getLsbD bit =
      (valueByte (bit / 8) value).getLsbD (bit % 8) := by
    have position : bit / 8 * 8 + bit % 8 = bit := by omega
    have small : bit % 8 < 8 := Nat.mod_lt bit (by omega)
    rw [getLsbD_valueByte, position, decide_eq_true small, Bool.true_and]
  rw [atBit first, atBit second, same (bit / 8) (by omega)]

theorem mem_byteSet {cases : List (CaseExpr width Block)} {i : Nat}
    {byte : BitVec 8} :
    byte ∈ byteSet cases i ↔ ∃ case_ ∈ cases, case_.byte i = byte := by
  simp [byteSet]

theorem byteSet_increasing (cases : List (CaseExpr width Block)) (i : Nat) :
    (byteSet cases i).Pairwise (· < ·) := by
  have sorted : (byteSet cases i).Pairwise
      (fun first second => decide (first ≤ second)) := by
    apply List.pairwise_mergeSort
    · intro first second third below below'
      simp only [decide_eq_true_eq] at below below' ⊢
      exact BitVec.le_trans below below'
    · intro first second
      simpa using BitVec.le_total first second
  have distinct : (byteSet cases i).Nodup :=
    (List.mergeSort_perm _ _).nodup_iff.mpr (List.nodup_dedup _)
  apply (sorted.and distinct).imp
  intro first second ⟨below, different⟩
  exact BitVec.lt_of_le_ne (of_decide_eq_true below) different

theorem length_byteSet_le (cases : List (CaseExpr width Block)) (i : Nat) :
    (byteSet cases i).length ≤ 256 := by
  have distinct : ((byteSet cases i).map BitVec.toFin).Nodup := by
    apply List.Nodup.map
    · intro first second same
      exact BitVec.eq_of_toFin_eq same
    · exact (byteSet_increasing cases i).imp BitVec.ne_of_lt
  simpa using distinct.length_le_card

/-- What the search has found after `count` rounds. -/
structure Smallest.Found (cases : List (CaseExpr width Block))
    (bytesChecked : List Bool) (smallest : Smallest) : Prop where
  unchecked : bytesChecked[smallest.index]? = some false
  size_eq : smallest.size = (byteSet cases smallest.index).length

theorem findSmallest_found (cases : List (CaseExpr width Block))
    {bytesChecked : List Bool} (open_ : false ∈ bytesChecked) :
    (findSmallest cases bytesChecked).Found cases bytesChecked := by
  -- before the first unchecked byte the search still has its start value
  have searched := forRange_invariant (Smallest.round cases bytesChecked)
    (fun count smallest =>
      (smallest.size = 257 ∧ ∀ i < count, bytesChecked[i]? ≠ some false) ∨
      smallest.Found cases bytesChecked)
    { index := 0, size := 257 } (.inl ⟨rfl, by simp⟩) bytesChecked.length
    (by
      intro i inside smallest soFar
      have entry : bytesChecked[i]? = some bytesChecked[i] :=
        List.getElem?_eq_getElem inside
      unfold Smallest.round
      rw [List.getD_eq_getElem?_getD, entry, Option.getD_some]
      cases checked : bytesChecked[i] with
      | true =>
          rw [if_pos rfl]
          rcases soFar with ⟨size, none_⟩ | found
          · refine .inl ⟨size, ?_⟩
            intro other below
            rcases Nat.lt_succ_iff_lt_or_eq.mp below with before | rfl
            · exact none_ other before
            · simp [entry, checked]
          · exact .inr found
      | false =>
          rw [if_neg Bool.false_ne_true]
          have atIndex : bytesChecked[i]? = some false := by
            rw [entry, checked]
          split
          · exact .inr ⟨atIndex, rfl⟩
          · rename_i notBelow
            rcases soFar with ⟨size, _⟩ | found
            · have bound := length_byteSet_le cases i
              omega
            · exact .inr found)
  rcases searched with ⟨_, none_⟩ | found
  · obtain ⟨i, inside, atIndex⟩ := List.mem_iff_getElem.mp open_
    exact absurd (by rw [List.getElem?_eq_getElem inside, atIndex])
      (none_ i inside)
  · exact found

namespace SwitchInst

theorem dispatch_of_absent {cases : List (CaseExpr width Block)}
    {value : BitVec width} (absent : ∀ case_ ∈ cases, case_.val ≠ value)
    (newDefault : Block) : dispatch cases newDefault value = newDefault := by
  have notFound : cases.find? (fun case_ => case_.val = value) = none := by
    apply List.find?_eq_none.mpr
    intro case_ member
    simpa using absent case_ member
  rw [dispatch, notFound]

/-- Cases with another value may be left out. -/
theorem dispatch_filter {cases : List (CaseExpr width Block)}
    {value : BitVec width} {keeps : CaseExpr width Block → Bool}
    (kept : ∀ case_ ∈ cases, case_.val = value → keeps case_ = true)
    (newDefault : Block) :
    dispatch (cases.filter keeps) newDefault value =
      dispatch cases newDefault value := by
  have sameFound : (cases.filter keeps).find? (fun case_ => case_.val = value) =
      cases.find? (fun case_ => case_.val = value) := by
    rw [List.find?_filter]
    apply List.find?_congr
    intro case_ member
    by_cases isValue : case_.val = value
    · simp [isValue, kept case_ member isValue]
    · simp [isValue]
  rw [dispatch, sameFound, dispatch]

end SwitchInst

/-- What holds of the arguments of every call. -/
structure ConvertArguments (cases : List (CaseExpr width Block))
    (bytesChecked : List Bool) : Prop where
  fits : 8 ≤ width ∧ width ≤ 64
  nonempty : cases ≠ []
  distinct : (cases.map CaseExpr.val).Nodup
  bytes : bytesChecked.length = (7 + width) / 8
  unchecked : false ∈ bytesChecked
  /-- the cases do not differ at a byte that was checked -/
  agree : ∀ i, bytesChecked[i]? = some true → ∀ first ∈ cases,
    ∀ second ∈ cases, valueByte i first.val = valueByte i second.val

/-- The tree sends every value that got so far where the cases send it. -/
def SwitchNode.Decides (node : SwitchNode Block)
    (cases : List (CaseExpr width Block)) (bytesChecked : List Bool) : Prop :=
  ∀ (newDefault : Block) (value : BitVec width),
    (∀ i, bytesChecked[i]? = some true → ∀ case_ ∈ cases,
      valueByte i value = valueByte i case_.val) →
    node.eval newDefault value = some (SwitchInst.dispatch cases newDefault value)

namespace ConvertArguments

variable {cases : List (CaseExpr width Block)} {bytesChecked : List Bool}

variable {pivot : BitVec 8} {left right : SwitchNode Block}

section

variable (arguments : ConvertArguments cases bytesChecked)
include arguments

theorem inside {checked : Bool} (entry : bytesChecked[index]? = some checked) :
    index < (7 + width) / 8 := by
  rw [← arguments.bytes]
  exact (List.getElem?_eq_some_iff.mp entry).1

/-- With a single byte left at `index`, all cases have it. -/
theorem byte_of_single (single : (byteSet cases index).length = 1)
    (member : case_ ∈ cases) :
    valueByte index case_.val = (byteSet cases index).headD 0#8 := by
  obtain ⟨byte, isByte⟩ := List.length_eq_one_iff.mp single
  have listed : case_.byte index ∈ byteSet cases index :=
    mem_byteSet.mpr ⟨case_, member, rfl⟩
  rw [isByte, List.mem_singleton] at listed
  rw [isByte, List.headD_cons, ← listed]
  exact (case_.byte_eq_valueByte arguments.fits.2 index).symm

theorem check (single : (byteSet cases index).length = 1)
    (remaining : false ∈ bytesChecked.set index true) :
    ConvertArguments cases (bytesChecked.set index true) where
  fits := arguments.fits
  nonempty := arguments.nonempty
  distinct := arguments.distinct
  bytes := by rw [List.length_set, arguments.bytes]
  unchecked := remaining
  agree := by
    intro i checked first isFirst second isSecond
    by_cases same : index = i
    · subst same
      rw [arguments.byte_of_single single isFirst,
        arguments.byte_of_single single isSecond]
    · rw [List.getElem?_set_ne same] at checked
      exact arguments.agree i checked first isFirst second isSecond

theorem filter {keeps : CaseExpr width Block → Bool}
    (some_ : ∃ case_ ∈ cases, keeps case_ = true) :
    ConvertArguments (cases.filter keeps) bytesChecked where
  fits := arguments.fits
  nonempty := by
    obtain ⟨case_, member, kept⟩ := some_
    exact List.ne_nil_of_mem (List.mem_filter.mpr ⟨member, kept⟩)
  distinct := arguments.distinct.sublist (List.filter_sublist.map _)
  bytes := arguments.bytes
  unchecked := arguments.unchecked
  agree := by
    intro i checked first isFirst second isSecond
    exact arguments.agree i checked first (List.mem_of_mem_filter isFirst)
      second (List.mem_of_mem_filter isSecond)

theorem length_eq_one (single : (byteSet cases index).length = 1)
    (done : false ∉ bytesChecked.set index true) : cases.length = 1 := by
  have same : ∀ first ∈ cases, ∀ second ∈ cases, first.val = second.val := by
    intro first isFirst second isSecond
    apply eq_of_valueBytes
    intro i below
    by_cases isIndex : index = i
    · subst isIndex
      rw [arguments.byte_of_single single isFirst,
        arguments.byte_of_single single isSecond]
    · have inRange : i < (bytesChecked.set index true).length := by
        rw [List.length_set, arguments.bytes]
        exact below
      cases checked : (bytesChecked.set index true)[i] with
      | false => exact absurd (checked ▸ List.getElem_mem inRange) done
      | true =>
          apply arguments.agree i _ first isFirst second isSecond
          rw [← List.getElem?_set_ne isIndex, List.getElem?_eq_getElem inRange,
            checked]
  have distinct := arguments.distinct
  match cases, arguments.nonempty with
  | [case_], _ => rfl
  | first :: second :: rest, _ =>
      have equal := same first (by simp) second (by simp)
      simp [equal] at distinct

section

variable (entry : bytesChecked[index]? = some false)
include entry

/-- The last unchecked byte decides between the one case and the default. -/
theorem decides_last (single : (byteSet cases index).length = 1)
    (done : false ∉ bytesChecked.set index true) (only : cases = [case_]) :
    (SwitchNode.byteMatch index ((byteSet cases index).headD 0#8)
      (.jump case_.bb)).Decides cases bytesChecked := by
  have member : case_ ∈ cases := by simp [only]
  intro newDefault value reached
  simp only [SwitchNode.eval, shiftTrunc_of_inside (arguments.inside entry)]
  rw [← arguments.byte_of_single single member]
  split
  · rename_i sameByte
    have isValue : case_.val = value := by
      apply eq_of_valueBytes
      intro i below
      by_cases isIndex : index = i
      · rw [← isIndex, sameByte]
      · have inRange : i < (bytesChecked.set index true).length := by
          rw [List.length_set, arguments.bytes]
          exact below
        cases checked : (bytesChecked.set index true)[i] with
        | false => exact absurd (checked ▸ List.getElem_mem inRange) done
        | true =>
            symm
            apply reached i _ case_ member
            rw [← List.getElem?_set_ne isIndex,
              List.getElem?_eq_getElem inRange, checked]
    simp [SwitchInst.dispatch, only, isValue]
  · rename_i otherByte
    have absent : ∀ other ∈ cases, other.val ≠ value := by
      intro other isOther isValue
      rw [only, List.mem_singleton] at isOther
      subst isOther
      exact otherByte (by rw [isValue])
    rw [SwitchInst.dispatch_of_absent absent]

/-- A byte that all cases share is matched before the others. -/
theorem decides_match (single : (byteSet cases index).length = 1)
    {found : SwitchNode Block}
    (decides : found.Decides cases (bytesChecked.set index true)) :
    (SwitchNode.byteMatch index ((byteSet cases index).headD 0#8)
      found).Decides cases bytesChecked := by
  intro newDefault value reached
  simp only [SwitchNode.eval, shiftTrunc_of_inside (arguments.inside entry)]
  split
  · rename_i sameByte
    apply decides newDefault value
    intro i checked case_ member
    by_cases isIndex : index = i
    · rw [← isIndex, sameByte, arguments.byte_of_single single member]
    · rw [List.getElem?_set_ne isIndex] at checked
      exact reached i checked case_ member
  · rename_i otherByte
    have absent : ∀ case_ ∈ cases, case_.val ≠ value := by
      intro case_ member isValue
      apply otherByte
      rw [← isValue, arguments.byte_of_single single member]
    rw [SwitchInst.dispatch_of_absent absent]

/-- Below and above the pivot only the cases on that side can match. -/
theorem decides_below (decidesLeft : left.Decides
      (cases.filter (fun case_ => decide (case_.byte index < pivot)))
      bytesChecked) (decidesRight : right.Decides
      (cases.filter (fun case_ => !decide (case_.byte index < pivot)))
      bytesChecked) :
    (SwitchNode.byteBelow index pivot left right).Decides cases
      bytesChecked := by
  intro newDefault value reached
  have sameByte : ∀ case_ ∈ cases, case_.val = value →
      case_.byte index = valueByte index value := by
    intro case_ _ isValue
    rw [case_.byte_eq_valueByte arguments.fits.2, isValue]
  simp only [SwitchNode.eval, shiftTrunc_of_inside (arguments.inside entry)]
  split
  · rename_i isBelow
    rw [decidesLeft newDefault value, SwitchInst.dispatch_filter]
    · intro case_ member isValue
      rw [sameByte case_ member isValue]
      exact decide_eq_true isBelow
    · intro i checked case_ member
      exact reached i checked case_ (List.mem_of_mem_filter member)
  · rename_i notBelow
    rw [decidesRight newDefault value, SwitchInst.dispatch_filter]
    · intro case_ member isValue
      rw [sameByte case_ member isValue, decide_eq_false notBelow]
      rfl
    · intro i checked case_ member
      exact reached i checked case_ (List.mem_of_mem_filter member)

end

theorem pivot_splits (several : (byteSet cases index).length ≠ 1) :
    let pivot := (byteSet cases index).getD
      ((byteSet cases index).length / 2) 0#8
    (∃ case_ ∈ cases, decide (case_.byte index < pivot) = true) ∧
      ∃ case_ ∈ cases, (!decide (case_.byte index < pivot)) = true := by
  obtain ⟨case_, member⟩ := List.exists_mem_of_ne_nil cases
    arguments.nonempty
  have positive : 0 < (byteSet cases index).length :=
    List.length_pos_of_mem (mem_byteSet.mpr ⟨case_, member, rfl⟩)
  have middle : (byteSet cases index).length / 2 <
      (byteSet cases index).length := by omega
  have isPivot : (byteSet cases index).getD
      ((byteSet cases index).length / 2) 0#8 =
      (byteSet cases index)[(byteSet cases index).length / 2] := by
    rw [List.getD_eq_getElem?_getD, List.getElem?_eq_getElem middle, Option.getD_some]
  have below : (byteSet cases index)[0] <
      (byteSet cases index)[(byteSet cases index).length / 2] :=
    List.pairwise_iff_getElem.mp (byteSet_increasing cases index) 0 _ positive
      middle (by omega)
  dsimp only
  rw [isPivot]
  constructor
  · obtain ⟨least, isCase, isLeast⟩ := mem_byteSet.mp (List.getElem_mem positive)
    exact ⟨least, isCase, by rw [isLeast]; exact decide_eq_true below⟩
  · obtain ⟨other, isCase, isMiddle⟩ := mem_byteSet.mp (List.getElem_mem middle)
    refine ⟨other, isCase, ?_⟩
    rw [isMiddle, decide_eq_false (BitVec.lt_irrefl _)]
    rfl

section

variable (isIndex : index = (findSmallest cases bytesChecked).index)
include isIndex

theorem switchConvert_last (single : (byteSet cases index).length = 1)
    (done : false ∉ bytesChecked.set index true) (only : cases = [case_]) (fuel : Nat) :
    switchConvert (fuel + 1) cases bytesChecked =
      some (.byteMatch index ((byteSet cases index).headD 0#8) (.jump case_.bb)) := by
  have found := findSmallest_found cases arguments.unchecked
  have all : (bytesChecked.set index true).all id = true := by
    apply List.all_eq_true.mpr
    intro checked member
    cases checked with
    | false => exact absurd member done
    | true => rfl
  subst only
  rw [switchConvert]
  dsimp only
  rw [if_neg (not_not.mpr arguments.fits), if_neg (by simp [found.unchecked]),
    found.size_eq, ← isIndex, if_pos single, if_pos all,
    if_pos List.length_singleton]

theorem switchConvert_match (single : (byteSet cases index).length = 1)
    (remaining : false ∈ bytesChecked.set index true) (fuel : Nat) :
    switchConvert (fuel + 1) cases bytesChecked =
      (switchConvert fuel cases (bytesChecked.set index true)).map
        (.byteMatch index ((byteSet cases index).headD 0#8)) := by
  have found := findSmallest_found cases arguments.unchecked
  have notAll : ¬ (bytesChecked.set index true).all id = true := by
    intro all
    exact absurd (List.all_eq_true.mp all false remaining) Bool.false_ne_true
  cases cases with
  | nil => exact absurd rfl arguments.nonempty
  | cons case_ rest =>
      rw [switchConvert]
      dsimp only
      rw [if_neg (not_not.mpr arguments.fits),
        if_neg (by simp [found.unchecked]), found.size_eq, ← isIndex,
        if_pos single, if_neg notAll]

theorem switchConvert_below (several : (byteSet cases index).length ≠ 1)
    (isPivot : pivot = (byteSet cases index).getD
      ((byteSet cases index).length / 2) 0#8) {fuel : Nat}
    (buildsLeft : switchConvert fuel
      (cases.filter (fun case_ => decide (case_.byte index < pivot)))
      bytesChecked = some left) (buildsRight : switchConvert fuel
      (cases.filter (fun case_ => !decide (case_.byte index < pivot)))
      bytesChecked = some right) :
    switchConvert (fuel + 1) cases bytesChecked =
      some (.byteBelow index pivot left right) := by
  have found := findSmallest_found cases arguments.unchecked
  cases cases with
  | nil => exact absurd rfl arguments.nonempty
  | cons case_ rest =>
      rw [switchConvert]
      dsimp only
      rw [if_neg (not_not.mpr arguments.fits),
        if_neg (by simp [found.unchecked]), found.size_eq, ← isIndex,
        if_neg several, ← isPivot, buildsLeft, buildsRight]

end

end

/-- Every call returns, and its tree decides its cases: each call below it
has fewer cases or fewer unchecked bytes. -/
theorem converts (budget : Nat)
    (arguments : ConvertArguments cases bytesChecked)
    (enough : cases.length + bytesChecked.count false ≤ budget) :
    ∃ node : SwitchNode Block, node.Decides cases bytesChecked ∧
      ∀ fuel, budget ≤ fuel → switchConvert fuel cases bytesChecked = some node := by
  induction budget generalizing cases bytesChecked with
  | zero =>
      have positive := List.length_pos_of_ne_nil arguments.nonempty
      omega
  | succ budget induction =>
      obtain ⟨index, isIndex⟩ : ∃ index,
          index = (findSmallest cases bytesChecked).index := ⟨_, rfl⟩
      have entry : bytesChecked[index]? = some false := by
        rw [isIndex]
        exact (findSmallest_found cases arguments.unchecked).unchecked
      by_cases single : (byteSet cases index).length = 1
      · by_cases remaining : false ∈ bytesChecked.set index true
        · have fewer : (bytesChecked.set index true).count false <
              bytesChecked.count false := by
            obtain ⟨inRange, isFalse⟩ := List.getElem?_eq_some_iff.mp entry
            have open_ : 0 < bytesChecked.count false :=
              List.count_pos_iff.mpr arguments.unchecked
            rw [List.count_set inRange, isFalse,
              if_pos (beq_self_eq_true false), if_neg (by decide)]
            omega
          obtain ⟨node, decides, builds⟩ := induction
            (arguments.check single remaining) (by omega)
          refine ⟨_, arguments.decides_match entry single decides, ?_⟩
          intro fuel enoughFuel
          cases fuel with
          | zero => omega
          | succ fuel =>
              rw [arguments.switchConvert_match isIndex single remaining,
                builds fuel (by omega), Option.map_some]
        · obtain ⟨case_, only⟩ := List.length_eq_one_iff.mp
            (arguments.length_eq_one single remaining)
          refine ⟨_, arguments.decides_last entry single remaining only, ?_⟩
          intro fuel enoughFuel
          cases fuel with
          | zero => omega
          | succ fuel =>
              exact arguments.switchConvert_last isIndex single remaining only
                fuel
      · obtain ⟨pivot, isPivot⟩ : ∃ pivot, pivot =
            (byteSet cases index).getD ((byteSet cases index).length / 2)
              0#8 := ⟨_, rfl⟩
        obtain ⟨onLeft, onRight⟩ := arguments.pivot_splits single
        rw [← isPivot] at onLeft onRight
        -- each side lacks a case of the other
        have shorterLeft : (cases.filter (fun case_ =>
            decide (case_.byte index < pivot))).length < cases.length := by
          obtain ⟨case_, member, isRight⟩ := onRight
          apply List.length_filter_lt_length_iff_exists.mpr
          exact ⟨case_, member, by simpa using isRight⟩
        have shorterRight : (cases.filter (fun case_ =>
            !decide (case_.byte index < pivot))).length < cases.length := by
          obtain ⟨case_, member, isLeft⟩ := onLeft
          apply List.length_filter_lt_length_iff_exists.mpr
          exact ⟨case_, member, by simpa using isLeft⟩
        obtain ⟨left, decidesLeft, buildsLeft⟩ := induction
          (arguments.filter onLeft) (by omega)
        obtain ⟨right, decidesRight, buildsRight⟩ := induction
          (arguments.filter onRight) (by omega)
        refine ⟨_, arguments.decides_below entry decidesLeft decidesRight, ?_⟩
        intro fuel enoughFuel
        cases fuel with
        | zero => omega
        | succ fuel =>
            exact arguments.switchConvert_below isIndex single isPivot
              (buildsLeft fuel (by omega)) (buildsRight fuel (by omega))

end ConvertArguments

/-- The pass ends, and the branches it leaves send every value where the switch
did. -/
theorem splitSwitch_dest (inst : SwitchInst width Block)
    (widths : 9 ≤ width ∧ width ≤ 64)
    (distinct : (inst.cases.map CaseExpr.val).Nodup) :
    ∃ terminator : SwitchTerminator width Block,
      (∀ fuel, inst.cases.length + (7 + width) / 8 ≤ fuel →
        splitSwitch fuel inst = some terminator) ∧
      ∀ value, terminator.dest value = some (inst.dest value) := by
  by_cases trivial_ : inst.cases.length < 1 ∨ width ≤ 8
  · refine ⟨.switch inst, ?_, fun value => rfl⟩
    intro fuel _
    rw [splitSwitch, if_pos trivial_]
  · have arguments : ConvertArguments inst.cases
        (List.replicate ((7 + width) / 8) false) := {
      fits := by omega
      nonempty := by
        intro empty
        exact trivial_ (.inl (by simp [empty]))
      distinct := distinct
      bytes := List.length_replicate
      unchecked := List.mem_replicate.mpr ⟨by omega, rfl⟩
      agree := by
        intro i checked
        simp [List.getElem?_replicate] at checked }
    obtain ⟨node, decides, builds⟩ := arguments.converts
      (inst.cases.length + (7 + width) / 8) (by simp)
    refine ⟨.tree node inst.defaultDest, ?_, ?_⟩
    · intro fuel enough
      rw [splitSwitch, if_neg trivial_]
      dsimp only
      rw [builds fuel enough]
    · intro value
      apply decides
      intro i checked
      simp [List.getElem?_replicate] at checked

/-- A switch over twelve bits, with two cases that share their high byte. -/
def twelveBitSwitch : SwitchInst 12 Nat where
  cases := [⟨0x101#12, 1⟩, ⟨0xf00#12, 2⟩, ⟨0x102#12, 3⟩]
  defaultDest := 0

theorem splitSwitch_dest_twelveBits :
    ∃ terminator, splitSwitch 5 twelveBitSwitch = some terminator ∧
      terminator.dest 0x102#12 = some 3 ∧
      terminator.dest 0xf02#12 = some 0 := by
  obtain ⟨terminator, builds, sends⟩ :=
    splitSwitch_dest twelveBitSwitch (by decide) (by decide)
  exact ⟨terminator, builds 5 (by decide), sends 0x102#12, sends 0xf02#12⟩

end AFLPlusPlus
