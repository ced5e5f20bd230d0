import AFLPlusPlus.Support.Decimal
import AFLPlusPlus.Viewer.Profile
import Mathlib.Data.List.Induction

/-!
# The coverage of source lines

`getCoverage` of the explorer page marks each line on which a basic block has
an instruction, from the file `virgin_bits` that the fuzzer writes again and
again.
-/

namespace AFLPlusPlus.Viewer

/-- `Map<string, number>` -/
abbrev CoverageMap := String → Option Nat

/-- The key of a line; a member that is missing reads as `undefined`. -/
def lineKey (fileId : Option Nat) (line : Nat) : String :=
  let file :=
    match fileId with
    | some id => Decimal.print id
    | none => "undefined".toList
  String.ofList (file ++ ':' :: Decimal.print line)

/-- `coverage.set(key, Math.min(coverage.get(key)!, freq))`, or `freq` alone for
a new key. -/
def setLeast (coverage : CoverageMap) (entry : String × Nat) : CoverageMap :=
  fun key =>
    if key = entry.1 then
      match coverage entry.1 with
      | some old => some (min old entry.2)
      | none => some entry.2
    else coverage key

/-- `bytes[block.id] === 255 ? 0 : 1`; there is no byte past the end. -/
def blockFreq (bytes : List UInt8) (block : BasicBlock) : Nat :=
  if bytes[block.id]? = some 255 then 0 else 1

def getCoverage (profile : Profile) (virginBits : List UInt8) : CoverageMap :=
  profile.basicBlocks.foldl
    (fun coverage block =>
      block.instructions.foldl
        (fun coverage inst =>
          setLeast coverage
            (lineKey inst.fileId inst.line, blockFreq virginBits block))
        coverage)
    fun _ => none

theorem lineKey_injective {fileId fileId' : Option Nat} {line line' : Nat}
    (same : lineKey fileId line = lineKey fileId' line') :
    fileId = fileId' ∧ line = line' := by
  have colon : ∀ number, ':' ∉ Decimal.print number := fun number =>
    Decimal.separator_not_mem_print (by decide)
  have noColon : ':' ∉ "undefined".toList := by decide
  have notDigits : ∀ number, Decimal.print number ≠ "undefined".toList := by
    intro number equal
    have member : 'u' ∈ Decimal.print number := by
      rw [equal]
      decide
    exact absurd (Decimal.isDigit_of_mem_print member) (by decide)
  have chars := String.ofList_injective same
  cases fileId with
  | none =>
      cases fileId' with
      | none =>
          obtain ⟨_, lines⟩ := Decimal.split_at_separator noColon noColon chars
          exact ⟨rfl, Decimal.print_injective lines⟩
      | some id' =>
          obtain ⟨files, _⟩ := Decimal.split_at_separator noColon (colon id') chars
          exact absurd files.symm (notDigits id')
  | some id =>
      cases fileId' with
      | none =>
          obtain ⟨files, _⟩ := Decimal.split_at_separator (colon id) noColon chars
          exact absurd files (notDigits id)
      | some id' =>
          obtain ⟨files, lines⟩ :=
            Decimal.split_at_separator (colon id) (colon id') chars
          exact ⟨congrArg some (Decimal.print_injective files),
            Decimal.print_injective lines⟩

/-- The map holds the least value of each key. -/
structure HoldsLeast (entries : List (String × Nat)) (coverage : CoverageMap) :
    Prop where
  attained : ∀ {key least}, coverage key = some least → (key, least) ∈ entries
  least : ∀ {key least}, coverage key = some least →
    ∀ value, (key, value) ∈ entries → least ≤ value
  present : ∀ {key value}, (key, value) ∈ entries → coverage key ≠ none

theorem setLeast_same (coverage : CoverageMap) (key : String) (value : Nat) :
    setLeast coverage (key, value) key =
      some (match coverage key with
        | some old => min old value
        | none => value) := by
  unfold setLeast
  rw [if_pos rfl]
  cases coverage key <;> rfl

theorem setLeast_of_ne (coverage : CoverageMap) {key other : String}
    (different : other ≠ key) (value : Nat) :
    setLeast coverage (key, value) other = coverage other :=
  if_neg different

theorem HoldsLeast.setLeast {entries : List (String × Nat)}
    {coverage : CoverageMap} (holds : HoldsLeast entries coverage)
    (key : String) (value : Nat) :
    HoldsLeast (entries ++ [(key, value)])
      (setLeast coverage (key, value)) := by
  have mem_of_ne : ∀ {other : String} {number : Nat}, other ≠ key →
      ((other, number) ∈ entries ++ [(key, value)] ↔ (other, number) ∈ entries) := by
    intro other number different
    simp only [List.mem_append, List.mem_singleton, Prod.mk.injEq, different,
      false_and, or_false]
  constructor
  · intro other least isLeast
    by_cases different : other ≠ key
    · rw [setLeast_of_ne coverage different] at isLeast
      exact (mem_of_ne different).mpr (holds.attained isLeast)
    · obtain rfl := not_not.mp different
      rw [setLeast_same] at isLeast
      obtain rfl := Option.some.inj isLeast
      cases old : coverage other with
      | none => exact List.mem_append_right _ (List.mem_singleton_self _)
      | some number =>
          dsimp only
          rcases Nat.le_total number value with less | more
          · rw [Nat.min_eq_left less]
            exact List.mem_append_left _ (holds.attained old)
          · rw [Nat.min_eq_right more]
            exact List.mem_append_right _ (List.mem_singleton_self _)
  · intro other least isLeast number member
    by_cases different : other ≠ key
    · rw [setLeast_of_ne coverage different] at isLeast
      exact holds.least isLeast number ((mem_of_ne different).mp member)
    · obtain rfl := not_not.mp different
      rw [setLeast_same] at isLeast
      obtain rfl := Option.some.inj isLeast
      rcases List.mem_append.mp member with inOld | isNew
      · cases old : coverage other with
        | none => exact absurd old (holds.present inOld)
        | some number' =>
            exact Nat.le_trans (Nat.min_le_left _ _)
              (holds.least old number inOld)
      · obtain ⟨_, rfl⟩ := Prod.mk.inj (List.mem_singleton.mp isNew)
        cases coverage other with
        | none => exact Nat.le_refl _
        | some number' => exact Nat.min_le_right _ _
  · intro other number member
    by_cases different : other ≠ key
    · rw [setLeast_of_ne coverage different]
      exact holds.present ((mem_of_ne different).mp member)
    · obtain rfl := not_not.mp different
      rw [setLeast_same]
      exact Option.some_ne_none _

theorem holdsLeast_foldl (entries : List (String × Nat)) :
    HoldsLeast entries (entries.foldl setLeast fun _ => none) := by
  induction entries using List.reverseRecOn with
  | nil =>
      constructor
      · intro key least isLeast
        cases isLeast
      · intro key least isLeast
        cases isLeast
      · intro key value member
        exact absurd member List.not_mem_nil
  | append_singleton entries entry induction =>
      rw [List.foldl_append]
      exact induction.setLeast entry.1 entry.2

def lineEntries (profile : Profile) (virginBits : List UInt8) : List (String × Nat) :=
  profile.basicBlocks.flatMap fun block =>
    block.instructions.map fun inst =>
      (lineKey inst.fileId inst.line, blockFreq virginBits block)

theorem getCoverage_eq_foldl (profile : Profile) (virginBits : List UInt8) :
    getCoverage profile virginBits =
      (lineEntries profile virginBits).foldl setLeast fun _ => none := by
  rw [getCoverage, lineEntries, List.foldl_flatMap]
  congr 1
  funext coverage block
  rw [List.foldl_map]

/-- `'line-success'` for true and `'line-danger'` for false. -/
def lineMark (coverage : CoverageMap) (fileId : Option Nat) (line : Nat) :
    Option Bool :=
  (coverage (lineKey fileId line)).map fun freq => decide (1 ≤ freq)

/-- The block has an instruction on this line. -/
def BasicBlock.OnLine (block : BasicBlock) (fileId : Option Nat) (line : Nat) :
    Prop :=
  ∃ inst ∈ block.instructions, inst.fileId = fileId ∧ inst.line = line

/-- The target ran the block: its byte is there and was cleared. -/
def BasicBlock.Hit (block : BasicBlock) (virginBits : List UInt8) : Prop :=
  ∃ byte, virginBits[block.id]? = some byte ∧ byte ≠ 255

/-- The marks are those of the recorded coverage, for every line with an
instruction; the other lines have none. -/
structure ShowsCoverage (profile : Profile) (virginBits : List UInt8) : Prop where
  success : ∀ fileId line,
    lineMark (getCoverage profile virginBits) fileId line = some true ↔
      (∃ block ∈ profile.basicBlocks, block.OnLine fileId line) ∧
        ∀ block ∈ profile.basicBlocks, block.OnLine fileId line → block.Hit virginBits
  danger : ∀ fileId line,
    lineMark (getCoverage profile virginBits) fileId line = some false ↔
      ∃ block ∈ profile.basicBlocks, block.OnLine fileId line ∧ ¬block.Hit virginBits

section Marks

variable {profile : Profile} {virginBits : List UInt8} {fileId : Option Nat}
  {line : Nat}

theorem mem_lineEntries {freq : Nat} :
    (lineKey fileId line, freq) ∈ lineEntries profile virginBits ↔
      ∃ block ∈ profile.basicBlocks, block.OnLine fileId line ∧
        blockFreq virginBits block = freq := by
  simp only [lineEntries, List.mem_flatMap, List.mem_map, Prod.mk.injEq]
  constructor
  · rintro ⟨block, member, inst, inBlock, same, isFreq⟩
    exact ⟨block, member, ⟨inst, inBlock, lineKey_injective same⟩, isFreq⟩
  · rintro ⟨block, member, ⟨inst, inBlock, rfl, rfl⟩, isFreq⟩
    exact ⟨block, member, inst, inBlock, rfl, isFreq⟩

theorem lineMark_false_iff :
    lineMark (getCoverage profile virginBits) fileId line = some false ↔
      ∃ block ∈ profile.basicBlocks, block.OnLine fileId line ∧
        virginBits[block.id]? = some 255 := by
  have holds := holdsLeast_foldl (lineEntries profile virginBits)
  rw [lineMark, getCoverage_eq_foldl, Option.map_eq_some_iff]
  constructor
  · rintro ⟨least, isLeast, low⟩
    obtain ⟨block, member, onLine, isFreq⟩ :=
      mem_lineEntries.mp (holds.attained isLeast)
    refine ⟨block, member, onLine, ?_⟩
    by_contra cleared
    rw [blockFreq, if_neg cleared] at isFreq
    rw [← isFreq] at low
    exact absurd low (by decide)
  · rintro ⟨block, member, onLine, full⟩
    have entry : (lineKey fileId line, 0) ∈ lineEntries profile virginBits :=
      mem_lineEntries.mpr ⟨block, member, onLine, if_pos full⟩
    obtain ⟨least, isLeast⟩ := Option.ne_none_iff_exists'.mp (holds.present entry)
    have zero := Nat.le_zero.mp (holds.least isLeast 0 entry)
    exact ⟨least, isLeast, by rw [zero]; rfl⟩

theorem lineMark_none_iff :
    lineMark (getCoverage profile virginBits) fileId line = none ↔
      ¬∃ block ∈ profile.basicBlocks, block.OnLine fileId line := by
  have holds := holdsLeast_foldl (lineEntries profile virginBits)
  rw [lineMark, getCoverage_eq_foldl, Option.map_eq_none_iff]
  constructor
  · rintro isNone ⟨block, member, onLine⟩
    exact holds.present (mem_lineEntries.mpr ⟨block, member, onLine, rfl⟩)
      isNone
  · intro noBlock
    by_contra isSome
    obtain ⟨least, isLeast⟩ := Option.ne_none_iff_exists'.mp isSome
    obtain ⟨block, member, onLine, _⟩ := mem_lineEntries.mp (holds.attained isLeast)
    exact noBlock ⟨block, member, onLine⟩

theorem lineMark_true_iff :
    lineMark (getCoverage profile virginBits) fileId line = some true ↔
      (∃ block ∈ profile.basicBlocks, block.OnLine fileId line) ∧
        ∀ block ∈ profile.basicBlocks, block.OnLine fileId line →
          virginBits[block.id]? ≠ some 255 := by
  have unmarked := @lineMark_none_iff profile virginBits fileId line
  have uncovered := @lineMark_false_iff profile virginBits fileId line
  cases mark : lineMark (getCoverage profile virginBits) fileId line with
  | none =>
      refine ⟨fun isTrue => ?_, fun shown => ?_⟩
      · cases isTrue
      · exact absurd shown.1 (unmarked.mp mark)
  | some covered =>
      have onLine := not_not.mp (mt unmarked.mpr (by rw [mark]; nofun))
      cases covered with
      | false =>
          refine ⟨fun isTrue => ?_, fun shown => ?_⟩
          · cases isTrue
          · obtain ⟨block, member, isOn, full⟩ := uncovered.mp mark
            exact absurd full (shown.2 block member isOn)
      | true =>
          refine ⟨fun _ => ⟨onLine, ?_⟩, fun _ => rfl⟩
          intro block member isOn full
          have isFalse := uncovered.mpr ⟨block, member, isOn, full⟩
          rw [mark] at isFalse
          exact absurd isFalse (by decide)

theorem BasicBlock.hit_iff {block : BasicBlock} :
    block.Hit virginBits ↔
      virginBits[block.id]? ≠ none ∧ virginBits[block.id]? ≠ some 255 := by
  unfold BasicBlock.Hit
  cases virginBits[block.id]? with
  | none => simp
  | some byte => simp

end Marks

/-- The marks are right if and only if each line with a block past the end of
the buffer has another block whose byte is 255. -/
theorem getCoverage_shows_iff (profile : Profile) (virginBits : List UInt8) :
    ShowsCoverage profile virginBits ↔
      ∀ fileId line,
        (∃ block ∈ profile.basicBlocks, block.OnLine fileId line ∧
          virginBits.length ≤ block.id) →
        ∃ block ∈ profile.basicBlocks, block.OnLine fileId line ∧
          virginBits[block.id]? = some 255 := by
  constructor
  · rintro shows fileId line ⟨block, member, onLine, past⟩
    have notHit : ¬block.Hit virginBits := by
      rw [BasicBlock.hit_iff, List.getElem?_eq_none past]
      exact fun both => both.1 rfl
    exact lineMark_false_iff.mp
      ((shows.danger fileId line).mpr ⟨block, member, onLine, notHit⟩)
  · intro another
    have danger : ∀ fileId line,
        (∃ block ∈ profile.basicBlocks, block.OnLine fileId line ∧
          virginBits[block.id]? = some 255) ↔
        ∃ block ∈ profile.basicBlocks, block.OnLine fileId line ∧
          ¬block.Hit virginBits := by
      intro fileId line
      constructor
      · rintro ⟨block, member, onLine, full⟩
        refine ⟨block, member, onLine, ?_⟩
        rw [BasicBlock.hit_iff]
        exact fun both => both.2 full
      · rintro ⟨block, member, onLine, notHit⟩
        by_cases full : virginBits[block.id]? = some 255
        · exact ⟨block, member, onLine, full⟩
        · apply another fileId line ⟨block, member, onLine, ?_⟩
          rw [BasicBlock.hit_iff, not_and_not_right] at notHit
          by_contra inside
          have isSome : virginBits[block.id]? ≠ none := by
            rw [Ne, List.getElem?_eq_none_iff]
            exact inside
          exact full (notHit isSome)
    constructor
    · intro fileId line
      rw [lineMark_true_iff]
      have same := danger fileId line
      have hits : (∀ block ∈ profile.basicBlocks, block.OnLine fileId line →
          virginBits[block.id]? ≠ some 255) ↔
          ∀ block ∈ profile.basicBlocks, block.OnLine fileId line →
            block.Hit virginBits := by
        have contrary := not_congr same
        simp only [not_exists, not_and, not_not] at contrary
        exact contrary
      rw [hits]
    · intro fileId line
      rw [lineMark_false_iff]
      exact danger fileId line

/-- A block of which the fuzzer has not written the byte yet is shown as
covered. -/
theorem getCoverage_covers_unwritten :
    ¬∀ profile virginBits, ShowsCoverage profile virginBits := by
  intro always
  let inst : Instruction := ⟨"/src", "main.c", 3, some 0, []⟩
  let profile : Profile := ⟨none, [⟨4, [inst], []⟩], []⟩
  have marked : lineMark (getCoverage profile [0, 255]) (some 0) 3 =
      some true := by decide
  obtain ⟨_, hits⟩ := ((always profile [0, 255]).success (some 0) 3).mp marked
  obtain ⟨byte, isByte, _⟩ := hits ⟨4, [inst], []⟩ List.mem_cons_self
    ⟨inst, List.mem_cons_self, rfl, rfl⟩
  cases isByte

end AFLPlusPlus.Viewer
