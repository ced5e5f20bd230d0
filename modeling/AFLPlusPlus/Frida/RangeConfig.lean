import AFLPlusPlus.Frida.RangeSets
import AFLPlusPlus.Support.Loops
import AFLPlusPlus.Support.StableSorts
import AFLPlusPlus.Sync.ForeignImport

/-!
# Configuring the ranges

The ranges to be included and those to be excluded come from the environment and
from calls of the script.  Each list is sorted after every change, and
neighbours that overlap end the program.  What sorts it is `g_array_sort`, a
parameter here; it is only known what it does with a comparison function that
orders the ranges.
-/

namespace AFLPlusPlus.RangeConfig

/-- How the configuration ends the program. -/
inductive RangesFatal where
  | twoAddresses
  | startPrefix
  | endPrefix
  | startDigits
  | endDigits
  | startConversion
  | endConversion
  | startNotLess
  | unresolvedModule
  | overlapping
  deriving DecidableEq

/-! ## Tokens -/

def maxRanges : Nat := 20

/-- Split a string at the first few delimiters. -/
def splitTokens (delimiter : Char) : Nat → CString → List CString
  | 0, remainder => [remainder]
  | more + 1, remainder =>
      match remainder.dropWhile (· ≠ delimiter) with
      | [] => [remainder]
      | _ :: behind =>
          remainder.takeWhile (· ≠ delimiter) :: splitTokens delimiter more behind

/-- `g_strsplit`, with a delimiter of one character. -/
def gStrsplit (string : CString) (delimiter : Char) (maxTokens : Nat) : List CString :=
  if string = [] then [] else splitTokens delimiter (maxTokens - 1) string

/-- `g_ascii_isxdigit` -/
def isXDigit (c : Char) : Bool :=
  c.isDigit || ('a' ≤ c && c ≤ 'f') || ('A' ≤ c && c ≤ 'F')

/-- `g_ascii_xdigit_value` -/
def xdigitValue (c : Char) : Nat :=
  if c.isDigit then c.toNat - '0'.toNat
  else if 'a' ≤ c then c.toNat - 'a'.toNat + 10
  else c.toNat - 'A'.toNat + 10

/-- `g_ascii_strtoull` of hexadecimal digits, which stops at the largest value. -/
def gAsciiStrtoull (digits : CString) : BitVec 64 :=
  BitVec.ofNat 64 (min (2 ^ 64 - 1)
    (digits.foldl (fun value c => value * 16 + xdigitValue c) 0))

def hexPrefix : CString := ['0', 'x']

def convertAddressToken (token : CString) : Except RangesFatal GumMemoryRange :=
  match gStrsplit token '-' 2 with
  | [fromStr, toStr] =>
      if hexPrefix.isPrefixOf fromStr = false then .error .startPrefix
      else if hexPrefix.isPrefixOf toStr = false then .error .endPrefix
      else
        let fromStr := fromStr.drop 2
        let toStr := toStr.drop 2
        if fromStr.all isXDigit = false then .error .startDigits
        else if toStr.all isXDigit = false then .error .endDigits
        else
          let start := gAsciiStrtoull fromStr
          let stop := gAsciiStrtoull toStr
          if start = 0 then .error .startConversion
          else if stop = 0 then .error .endConversion
          else if stop ≤ start then .error .startNotLess
          else .ok ⟨start, stop - start⟩
  | _ => .error .twoAddresses

/-- `GumModuleDetails` -/
structure GumModuleDetails where
  path : Option CString
  range : GumMemoryRange

/-- `convert_name_token_for_module`, for one module after the other. -/
def convertNameToken (token : CString) :
    List GumModuleDetails → Except RangesFatal GumMemoryRange
  | [] => .error .unresolvedModule
  | details :: modules =>
      match details.path with
      | none => convertNameToken token modules
      | some path =>
          if ('/' :: token).isSuffixOf path then .ok details.range
          else convertNameToken token modules

section Configuration

variable (modules : List GumModuleDetails)

def convertToken (token : CString) : Except RangesFatal GumMemoryRange :=
  if hexPrefix.isPrefixOf token then convertAddressToken token
  else convertNameToken token modules

/-- The first loop of `collect_ranges`: what the tokens of a variable are
converted to. -/
def convertTokens : List CString → Except RangesFatal (List GumMemoryRange)
  | [] => .ok []
  | token :: tokens => do
      let range ← convertToken modules token
      let ranges ← convertTokens tokens
      .ok (range :: ranges)

def envRanges (envVal : Option CString) : Except RangesFatal (List GumMemoryRange) :=
  match envVal with
  | none => .ok []
  | some envVal => convertTokens modules (gStrsplit envVal ',' maxRanges)

/-! ## Lists -/

/-- `range_sort`: the difference of two addresses, as a `gint`. -/
def rangeSort (a b : GumMemoryRange) : Int :=
  ((a.baseAddress - b.baseAddress).setWidth 32).toInt

def checkForOverlaps : List GumMemoryRange → Except RangesFatal Unit
  | prev :: curr :: rest =>
      if curr.baseAddress < prev.limit then .error .overlapping
      else checkForOverlaps (curr :: rest)
  | _ => .ok ()

variable (gArraySort : (GumMemoryRange → GumMemoryRange → Int) →
  List GumMemoryRange → List GumMemoryRange)

/-- `g_array_sort` and `check_for_overlaps`. -/
def sortAndCheck (array : List GumMemoryRange) :
    Except RangesFatal (List GumMemoryRange) := do
  let array := gArraySort rangeSort array
  checkForOverlaps array
  .ok array

def collectRanges (envVal : Option CString) :
    Except RangesFatal (List GumMemoryRange) :=
  match envVal with
  | none => .ok []
  | some _ => do
      let result ← envRanges modules envVal
      sortAndCheck gArraySort result

/-- The body of `ranges_add_include` and `ranges_add_exclude`. -/
def rangesAdd (array : List GumMemoryRange) (range : GumMemoryRange) :
    Except RangesFatal (List GumMemoryRange) :=
  sortAndCheck gArraySort (array ++ [range])

/-- The two lists. -/
structure Lists where
  includeRanges : List GumMemoryRange
  excludeRanges : List GumMemoryRange

/-- A call of `js_api_add_include_range` or `js_api_add_exclude_range`. -/
inductive AddedRange where
  | included (range : GumMemoryRange)
  | excluded (range : GumMemoryRange)

def rangesAddInclude (lists : Lists) (range : GumMemoryRange) :
    Except RangesFatal Lists := do
  let includeRanges ← rangesAdd gArraySort lists.includeRanges range
  .ok { lists with includeRanges }

def rangesAddExclude (lists : Lists) (range : GumMemoryRange) :
    Except RangesFatal Lists := do
  let excludeRanges ← rangesAdd gArraySort lists.excludeRanges range
  .ok { lists with excludeRanges }

def jsApiAdd (lists : Lists) : AddedRange → Except RangesFatal Lists
  | .included range => rangesAddInclude gArraySort lists range
  | .excluded range => rangesAddExclude gArraySort lists range

def rangesConfig (instRanges excludeRanges : Option CString) :
    Except RangesFatal Lists := do
  let includeRanges ← collectRanges modules gArraySort instRanges
  let excludeRanges ← collectRanges modules gArraySort excludeRanges
  .ok ⟨includeRanges, excludeRanges⟩

/-- `ranges_config`, the calls of the script, and what `ranges_init` does with
the lists. -/
def initialise (instRanges excludeRanges : Option CString)
    (calls : List AddedRange) : Except RangesFatal Lists := do
  let lists ← rangesConfig modules gArraySort instRanges excludeRanges
  let lists ← calls.foldlM (jsApiAdd gArraySort) lists
  .ok { lists with includeRanges := includedOrAll lists.includeRanges }

end Configuration

/-! ## What is claimed -/

/-- Two ranges have no address in common. -/
def Disjoint (first second : GumMemoryRange) : Prop :=
  ∀ address, ¬ (first.Contains address ∧ second.Contains address)

def PairwiseDisjoint (ranges : List GumMemoryRange) : Prop := ranges.Pairwise Disjoint

def SortedByBase (ranges : List GumMemoryRange) : Prop :=
  ranges.Pairwise fun first second => first.start ≤ second.start

/-- The collections of ranges that were to be included and excluded, and what
came of them. -/
structure Right (included excluded : List GumMemoryRange)
    (outcome : Except RangesFatal Lists) : Prop where
  sorted : ∀ lists, outcome = .ok lists →
    SortedByBase lists.includeRanges ∧ SortedByBase lists.excludeRanges
  accepted : PairwiseDisjoint included → PairwiseDisjoint excluded →
    ∃ lists, outcome = .ok lists
  rejected : ¬ PairwiseDisjoint included ∨ ¬ PairwiseDisjoint excluded →
    outcome = .error .overlapping

/-- `range_sort` orders the ranges, and of two ranges the one it puts first ends
before the other; those that compare equal were added in this order. -/
structure WellOrdered (ranges : List GumMemoryRange) : Prop where
  consistent : Qsort.Consistent rangeSort ranges
  separated : ranges.Pairwise fun first second =>
    if rangeSort first second ≤ 0 then first.stop ≤ second.start
    else second.stop ≤ first.start

/-- The ranges that the calls add to the first list. -/
def addedIncludes : List AddedRange → List GumMemoryRange
  | [] => []
  | .included range :: calls => range :: addedIncludes calls
  | .excluded _ :: calls => addedIncludes calls

/-- The ranges that the calls add to the second list. -/
def addedExcludes : List AddedRange → List GumMemoryRange
  | [] => []
  | .included _ :: calls => addedExcludes calls
  | .excluded range :: calls => range :: addedExcludes calls

/-! ## One list -/

/-- Every range ends before the next one starts. -/
def InOrder (ranges : List GumMemoryRange) : Prop :=
  ranges.Pairwise fun first second => first.stop ≤ second.start

variable {a b : GumMemoryRange} {failure : RangesFatal}

section Lists

variable {ranges : List GumMemoryRange}

theorem InOrder.sorted (inOrder : InOrder ranges) : SortedByBase ranges :=
  List.Pairwise.imp
    (fun ends => Nat.le_trans GumMemoryRange.start_le_stop ends) inOrder

theorem InOrder.disjoint (inOrder : InOrder ranges) : PairwiseDisjoint ranges := by
  apply List.Pairwise.imp _ inOrder
  intro first second ends address both
  have before := both.1.2
  have after := both.2.1
  omega

theorem InOrder.pair (inOrder : InOrder ranges) (pair : [a, b].Sublist ranges) :
    a.stop ≤ b.start :=
  List.pairwise_iff_forall_sublist.mp inOrder pair

theorem PairwiseDisjoint.perm {other : List GumMemoryRange}
    (disjoint : PairwiseDisjoint ranges) (perm : ranges.Perm other) :
    PairwiseDisjoint other :=
  (perm.pairwise_iff fun {_ _} apart address both =>
    apart address both.symm).mp disjoint

theorem checkForOverlaps_ok
    (bounded : ∀ range ∈ ranges, range.NoOverflow) :
    checkForOverlaps ranges = .ok () ↔ InOrder ranges := by
  induction ranges with
  | nil => exact ⟨fun _ => .nil, fun _ => rfl⟩
  | cons prev rest induction =>
      cases rest with
      | nil => exact ⟨fun _ => List.pairwise_singleton _ _, fun _ => rfl⟩
      | cons curr rest =>
          have tail := induction fun range member =>
            bounded range (List.mem_cons_of_mem _ member)
          have limit := (bounded prev List.mem_cons_self).limit_toNat
          rw [checkForOverlaps]
          split
          · rename_i overlaps
            rw [BitVec.lt_def, limit] at overlaps
            constructor
            · exact nofun
            · intro inOrder
              have ends := (List.pairwise_cons.mp inOrder).1 curr
                List.mem_cons_self
              exact absurd overlaps (Nat.not_lt.mpr ends)
          · rename_i apart
            rw [BitVec.lt_def, limit] at apart
            have ends : prev.stop ≤ curr.start := Nat.not_lt.mp apart
            rw [tail]
            constructor
            · intro inOrder
              apply List.pairwise_cons.mpr
              refine ⟨?_, inOrder⟩
              intro range member
              cases member with
              | head => exact ends
              | tail _ later =>
                  have next := (List.pairwise_cons.mp inOrder).1 range later
                  have size := @GumMemoryRange.start_le_stop curr
                  omega
            · exact fun inOrder => (List.pairwise_cons.mp inOrder).2

theorem checkForOverlaps_fatal (fatal : checkForOverlaps ranges = .error failure) :
    failure = .overlapping := by
  induction ranges with
  | nil => cases fatal
  | cons prev rest induction =>
      cases rest with
      | nil => cases fatal
      | cons curr rest =>
          rw [checkForOverlaps] at fatal
          split at fatal
          · cases fatal
            rfl
          · exact induction fatal

theorem consistent_of_inOrder
    (anyOrder : ∀ other, other.Perm ranges → InOrder other) :
    Qsort.Consistent rangeSort ranges := by
  have before : ∀ a ∈ ranges, ∀ b ∈ ranges, a ≠ b → a.start ≤ b.start := by
    intro a first b second different
    have perm : (a :: ranges.erase a).Perm ranges := (List.perm_cons_erase first).symm
    have rest : b ∈ ranges.erase a := (List.mem_erase_of_ne different.symm).mpr second
    have ends := (List.pairwise_cons.mp (anyOrder _ perm)).1 b rest
    exact Nat.le_trans GumMemoryRange.start_le_stop ends
  have same : ∀ a ∈ ranges, ∀ b ∈ ranges, rangeSort a b = 0 := by
    intro a first b second
    have base : a.baseAddress = b.baseAddress := by
      by_cases equal : a = b
      · rw [equal]
      · apply BitVec.eq_of_toNat_eq
        exact Nat.le_antisymm (before a first b second equal)
          (before b second a first (Ne.symm equal))
    rw [rangeSort, base, BitVec.sub_self]
    rfl
  exact Qsort.consistent_of_difference (fun _ => 0) fun a first b second => by
    rw [same a first b second]
    rfl

end Lists

section Collections

variable {gArraySort : (GumMemoryRange → GumMemoryRange → Int) →
  List GumMemoryRange → List GumMemoryRange}
  {array result first added rest : List GumMemoryRange}

theorem sortAndCheck_ok (permutes : Qsort.Permutes gArraySort)
    (bounded : ∀ range ∈ array, range.NoOverflow) :
    sortAndCheck gArraySort array = .ok result ↔
      result = gArraySort rangeSort array ∧ InOrder result := by
  have inOrder := checkForOverlaps_ok fun range member =>
    bounded range ((permutes rangeSort array).subset member)
  rw [sortAndCheck]
  cases checked : checkForOverlaps (gArraySort rangeSort array) with
  | error failure =>
      constructor
      · exact nofun
      · intro accepted
        have unchecked := inOrder.mpr (accepted.1 ▸ accepted.2)
        rw [checked] at unchecked
        cases unchecked
  | ok none =>
      constructor
      · intro returned
        obtain rfl : gArraySort rangeSort array = result := Except.ok.inj returned
        exact ⟨rfl, inOrder.mp checked⟩
      · intro accepted
        rw [accepted.1]
        rfl

theorem sortAndCheck_fatal (fatal : sortAndCheck gArraySort array = .error failure) :
    failure = .overlapping := by
  rw [sortAndCheck] at fatal
  cases checked : checkForOverlaps (gArraySort rangeSort array) with
  | error other =>
      rw [checked] at fatal
      cases fatal
      exact checkForOverlaps_fatal checked
  | ok none =>
      rw [checked] at fatal
      cases fatal

/-- One list, from the environment to the last call. -/
def collectAll (gArraySort : (GumMemoryRange → GumMemoryRange → Int) →
    List GumMemoryRange → List GumMemoryRange)
    (first added : List GumMemoryRange) :
    Except RangesFatal (List GumMemoryRange) :=
  sortAndCheck gArraySort first >>= added.foldlM (rangesAdd gArraySort)

theorem collectAll_nil :
    collectAll gArraySort first [] = sortAndCheck gArraySort first := by
  rw [collectAll]
  cases sortAndCheck gArraySort first <;> rfl

theorem collectAll_cons (range : GumMemoryRange) :
    collectAll gArraySort first (range :: added) =
      sortAndCheck gArraySort first >>= fun array =>
        collectAll gArraySort (array ++ [range]) added := rfl

theorem bounded_perm (perm : array.Perm first)
    (bounded : ∀ range ∈ first ++ added, range.NoOverflow) :
    ∀ range ∈ array ++ added, range.NoOverflow := by
  intro range member
  exact bounded range ((perm.append_right added).subset member)

section

variable (permutes : Qsort.Permutes gArraySort)
    (bounded : ∀ range ∈ first ++ added, range.NoOverflow)
    (accepted : collectAll gArraySort first added = .ok result)
include permutes bounded accepted

/-- A list that is accepted was sorted in the end, and is in order. -/
theorem collectAll_sorted :
    ∃ items, items.Perm (first ++ added) ∧
      result = gArraySort rangeSort items ∧ InOrder result := by
  induction added generalizing first with
  | nil =>
      rw [collectAll_nil] at accepted
      rw [List.append_nil] at bounded ⊢
      exact ⟨first, .refl _, (sortAndCheck_ok permutes bounded).mp accepted⟩
  | cons range added induction =>
      have boundedFirst : ∀ range ∈ first, range.NoOverflow :=
        fun range member => bounded range (List.mem_append_left _ member)
      rw [collectAll_cons] at accepted
      obtain ⟨array, sorted, later⟩ := bind_returns accepted
      have isSorted := (sortAndCheck_ok permutes boundedFirst).mp sorted
      have perm : array.Perm first := by
        rw [isSorted.1]
        exact permutes rangeSort first
      have boundedRest : ∀ other ∈ array ++ [range] ++ added, other.NoOverflow := by
        rw [List.append_assoc]
        exact bounded_perm perm bounded
      obtain ⟨items, isItems, final⟩ := induction boundedRest later
      refine ⟨items, isItems.trans ?_, final⟩
      rw [List.append_assoc]
      exact perm.append_right _

theorem collectAll_inOrder : result.Perm (first ++ added) ∧ InOrder result := by
  obtain ⟨items, perm, rfl, inOrder⟩ := collectAll_sorted permutes bounded accepted
  exact ⟨(permutes rangeSort items).trans perm, inOrder⟩

end

/-! ### Well ordered collections are accepted -/

theorem WellOrdered.sort_inOrder (sorts : Qsort.SortsStably gArraySort)
    (ordered : WellOrdered first) :
    InOrder (gArraySort rangeSort first) := by
  apply List.pairwise_iff_forall_sublist.mpr
  intro a b pair
  obtain ⟨order, origin⟩ := sorts.origin ordered.consistent pair
  cases origin with
  | inl kept =>
      have ends := Qsort.related_of_pair ordered.separated kept
      rwa [if_pos order] at ends
  | inr turned =>
      have ends := Qsort.related_of_pair ordered.separated turned.1
      rwa [if_neg (Int.not_le.mpr turned.2)] at ends

theorem WellOrdered.append_left (ordered : WellOrdered (first ++ rest)) :
    WellOrdered first where
  consistent := ordered.consistent.subset (List.subset_append_left _ _)
  separated := (List.pairwise_append.mp ordered.separated).1

theorem WellOrdered.sorted (sorts : Qsort.SortsStably gArraySort)
    (ordered : WellOrdered (first ++ rest)) :
    WellOrdered (gArraySort rangeSort first ++ rest) := by
  have perm := sorts.permutes rangeSort first
  have parts := List.pairwise_append.mp ordered.separated
  refine ⟨ordered.consistent.perm (perm.append_right rest), ?_⟩
  apply List.pairwise_append.mpr
  refine ⟨?_, parts.2.1, fun a member => parts.2.2 a (perm.subset member)⟩
  apply List.pairwise_iff_forall_sublist.mpr
  intro a b pair
  have order := (sorts.origin ordered.append_left.consistent pair).1
  rw [if_pos order]
  exact (ordered.append_left.sort_inOrder sorts).pair pair

section

variable (sorts : Qsort.SortsStably gArraySort)
    (bounded : ∀ range ∈ first ++ added, range.NoOverflow)
include sorts bounded

theorem WellOrdered.accepted (ordered : WellOrdered (first ++ added)) :
    ∃ result, collectAll gArraySort first added = .ok result := by
  have returns : ∀ first : List GumMemoryRange, WellOrdered first →
      (∀ range ∈ first, range.NoOverflow) →
      sortAndCheck gArraySort first = .ok (gArraySort rangeSort first) :=
    fun first ordered bounded => (sortAndCheck_ok sorts.permutes bounded).mpr
      ⟨rfl, ordered.sort_inOrder sorts⟩
  induction added generalizing first with
  | nil =>
      rw [List.append_nil] at ordered bounded
      exact ⟨_, collectAll_nil.trans (returns first ordered bounded)⟩
  | cons range added induction =>
      have boundedFirst : ∀ range ∈ first, range.NoOverflow :=
        fun range member => bounded range (List.mem_append_left _ member)
      rw [collectAll_cons, returns first ordered.append_left boundedFirst]
      apply induction
      · rw [List.append_assoc]
        exact bounded_perm (sorts.permutes rangeSort first) bounded
      · rw [List.append_assoc]
        exact ordered.sorted sorts

/-! ### Accepted collections are well ordered -/

/-- Two ranges end in the order of the comparison function. -/
theorem collectAll_pairs (consistent : Qsort.Consistent rangeSort (first ++ added))
    (accepted : collectAll gArraySort first added = .ok result)
    (pair : [a, b].Sublist (first ++ added)) :
    (rangeSort a b ≤ 0 → [a, b].Sublist result) ∧
      (0 < rangeSort a b → [b, a].Sublist result) := by
  induction added generalizing first a b with
  | nil =>
      rw [List.append_nil] at bounded consistent pair
      rw [collectAll_nil] at accepted
      rw [((sortAndCheck_ok sorts.permutes bounded).mp accepted).1]
      exact ⟨sorts.keeps consistent pair, sorts.turns consistent pair⟩
  | cons range added induction =>
      have boundedFirst : ∀ range ∈ first, range.NoOverflow :=
        fun range member => bounded range (List.mem_append_left _ member)
      have consistentFirst : Qsort.Consistent rangeSort first :=
        consistent.subset (List.subset_append_left _ _)
      rw [collectAll_cons] at accepted
      obtain ⟨array, sorted, later⟩ := bind_returns accepted
      have isSorted := ((sortAndCheck_ok sorts.permutes boundedFirst).mp sorted).1
      have perm : array.Perm first := by
        rw [isSorted]
        exact sorts.permutes rangeSort first
      have behind : array ++ [range] ++ added = array ++ range :: added :=
        List.append_assoc _ _ _
      have laterPairs : ∀ a b : GumMemoryRange,
          [a, b].Sublist (array ++ range :: added) →
          (rangeSort a b ≤ 0 → [a, b].Sublist result) ∧
            (0 < rangeSort a b → [b, a].Sublist result) := by
        intro a b pair
        apply induction
        · rw [behind]
          exact bounded_perm perm bounded
        · rw [behind]
          exact consistent.perm (perm.append_right _)
        · exact later
        · rwa [behind]
      match Qsort.pair_of_append pair with
      | .inr (.inr inRest) =>
          exact laterPairs a b (inRest.trans (List.sublist_append_right _ _))
      | .inr (.inl ⟨inFirst, inRest⟩) =>
          have member : a ∈ array := perm.mem_iff.mpr inFirst
          exact laterPairs a b
            ((List.singleton_sublist.mpr member).append inRest)
      | .inl inFirst =>
          have antisymm := consistentFirst.antisymm a
            (Qsort.pair_mem inFirst).1 b (Qsort.pair_mem inFirst).2
          constructor
          · intro order
            have kept := sorts.keeps consistentFirst inFirst order
            rw [← isSorted] at kept
            exact (laterPairs a b (kept.trans (List.sublist_append_left _ _))).1 order
          · intro disorder
            have turned := sorts.turns consistentFirst inFirst disorder
            rw [← isSorted] at turned
            exact (laterPairs b a
              (turned.trans (List.sublist_append_left _ _))).1
                (Int.le_of_lt (antisymm.mp disorder))

end

open Classical in
/-- The ranges in an order that is rejected, if there is one. -/
noncomputable def rejectedOrder (ranges : List GumMemoryRange) : List GumMemoryRange :=
  if rejected : ∃ other : List GumMemoryRange, other.Perm ranges ∧ ¬ InOrder other then
    rejected.choose
  else ranges

theorem rejectedOrder_perm (ranges : List GumMemoryRange) :
    (rejectedOrder ranges).Perm ranges := by
  rw [rejectedOrder]
  split
  · rename_i rejected
    exact rejected.choose_spec.1
  · exact .refl _

theorem rejectedOrder_inOrder {ranges : List GumMemoryRange}
    (inOrder : InOrder (rejectedOrder ranges)) :
    Qsort.Consistent rangeSort ranges := by
  rw [rejectedOrder] at inOrder
  split at inOrder
  · rename_i rejected
    exact absurd inOrder rejected.choose_spec.2
  · rename_i always
    apply consistent_of_inOrder
    intro other perm
    by_contra unordered
    exact always ⟨other, perm, unordered⟩

theorem wellOrdered_of_accepted
    (bounded : ∀ range ∈ first ++ added, range.NoOverflow)
    (accepted : ∀ gArraySort, Qsort.SortsStably gArraySort →
      ∃ result, collectAll gArraySort first added = .ok result) :
    WellOrdered (first ++ added) := by
  have consistent : Qsort.Consistent rangeSort (first ++ added) := by
    have arbitrary := Qsort.arbitrarySort_stable rejectedOrder_perm
    obtain ⟨result, returned⟩ := accepted _ arbitrary
    obtain ⟨items, perm, isResult, inOrder⟩ :=
      collectAll_sorted arbitrary.permutes bounded returned
    by_cases ordered : Qsort.Consistent rangeSort items
    · exact ordered.perm perm.symm
    · rw [Qsort.arbitrarySort, if_neg ordered] at isResult
      rw [isResult] at inOrder
      exact absurd (rejectedOrder_inOrder inOrder) ordered
  refine ⟨consistent, List.pairwise_iff_forall_sublist.mpr ?_⟩
  intro a b pair
  have stable := @Qsort.insertionSort_stable GumMemoryRange
  obtain ⟨result, returned⟩ := accepted _ stable
  have pairs := collectAll_pairs stable bounded consistent returned pair
  have inOrder := (collectAll_inOrder stable.permutes bounded returned).2
  split
  · rename_i order
    exact inOrder.pair (pairs.1 order)
  · rename_i disorder
    exact inOrder.pair (pairs.2 (Int.not_le.mp disorder))

end Collections

variable {final lists : Lists} {envVal : Option CString}

/-! ## The ranges of the tokens -/

section Tokens

variable {modules : List GumModuleDetails} {token : CString}
  {range : GumMemoryRange}

theorem noOverflow_between {start stop : BitVec 64} (less : start < stop) :
    GumMemoryRange.NoOverflow ⟨start, stop - start⟩ := by
  rw [BitVec.lt_def] at less
  have size := BitVec.toNat_sub_of_le (Nat.le_of_lt less)
  change start.toNat + (stop - start).toNat < 2 ^ 64
  omega

theorem convertAddressToken_bounded
    (converted : convertAddressToken token = .ok range) :
    range.NoOverflow := by
  rw [convertAddressToken] at converted
  split at converted
  · simp only at converted
    repeat' split at converted
    all_goals try cases converted
    rename_i less
    exact noOverflow_between (BitVec.not_le.mp less)
  · cases converted

section

variable (bounded : ∀ details ∈ modules, details.range.NoOverflow)
include bounded

theorem convertNameToken_bounded
    (converted : convertNameToken token modules = .ok range) :
    range.NoOverflow := by
  induction modules with
  | nil => cases converted
  | cons details modules induction =>
      have rest := induction fun other member =>
        bounded other (List.mem_cons_of_mem _ member)
      rw [convertNameToken] at converted
      split at converted
      · exact rest converted
      · split at converted
        · cases converted
          exact bounded details List.mem_cons_self
        · exact rest converted

theorem convertTokens_bounded {tokens : List CString} {ranges : List GumMemoryRange}
    (converted : convertTokens modules tokens = .ok ranges) :
    ∀ range ∈ ranges, range.NoOverflow := by
  induction tokens generalizing ranges with
  | nil =>
      cases converted
      exact nofun
  | cons token tokens induction =>
      obtain ⟨range, isRange, rest⟩ := bind_returns converted
      obtain ⟨later, isLater, same⟩ := bind_returns rest
      cases same
      have first : range.NoOverflow := by
        rw [convertToken] at isRange
        split at isRange
        · exact convertAddressToken_bounded isRange
        · exact convertNameToken_bounded bounded isRange
      exact List.forall_mem_cons.mpr ⟨first, induction isLater⟩

theorem envRanges_bounded {ranges : List GumMemoryRange}
    (converted : envRanges modules envVal = .ok ranges) :
    ∀ range ∈ ranges, range.NoOverflow := by
  cases envVal with
  | none =>
      cases converted
      exact nofun
  | some envVal => exact convertTokens_bounded bounded converted

end

end Tokens

/-! ## Both lists -/

def AddedRange.range : AddedRange → GumMemoryRange
  | .included range => range
  | .excluded range => range

section Both

variable {modules : List GumModuleDetails}
  {gArraySort : (GumMemoryRange → GumMemoryRange → Int) →
    List GumMemoryRange → List GumMemoryRange}
  {instRanges excludeRanges : Option CString}
  {included excluded : List GumMemoryRange} {calls : List AddedRange}

theorem added_subset (calls : List AddedRange) :
    addedIncludes calls ⊆ calls.map AddedRange.range ∧
      addedExcludes calls ⊆ calls.map AddedRange.range := by
  induction calls with
  | nil => exact ⟨List.Subset.refl _, List.Subset.refl _⟩
  | cons call calls induction =>
      obtain ⟨includes, excludes⟩ := induction
      cases call with
      | included range =>
          exact ⟨List.cons_subset_cons _ includes,
            List.subset_cons_of_subset _ excludes⟩
      | excluded range =>
          exact ⟨List.subset_cons_of_subset _ includes,
            List.cons_subset_cons _ excludes⟩

theorem mem_addedIncludes {range : GumMemoryRange}
    (member : range ∈ addedIncludes calls) :
    ∃ call ∈ calls, call.range = range :=
  List.mem_map.mp ((added_subset calls).1 member)

theorem mem_addedExcludes {range : GumMemoryRange}
    (member : range ∈ addedExcludes calls) :
    ∃ call ∈ calls, call.range = range :=
  List.mem_map.mp ((added_subset calls).2 member)

theorem collectRanges_eq (permutes : Qsort.Permutes gArraySort)
    {ranges : List GumMemoryRange} (converted : envRanges modules envVal = .ok ranges) :
    collectRanges modules gArraySort envVal = sortAndCheck gArraySort ranges := by
  cases envVal with
  | none =>
      cases converted
      rw [sortAndCheck, List.perm_nil.mp (permutes rangeSort [])]
      rfl
  | some envVal =>
      rw [collectRanges, converted]
      rfl

/-- The calls work on the two lists one by one. -/
theorem jsApiAdd_ok :
    calls.foldlM (jsApiAdd gArraySort) lists = .ok final ↔
      (addedIncludes calls).foldlM (rangesAdd gArraySort) lists.includeRanges =
          .ok final.includeRanges ∧
        (addedExcludes calls).foldlM (rangesAdd gArraySort)
          lists.excludeRanges = .ok final.excludeRanges := by
  induction calls generalizing lists with
  | nil =>
      obtain ⟨includes, excludes⟩ := lists
      obtain ⟨includes', excludes'⟩ := final
      simp [addedIncludes, addedExcludes, pure, Except.pure]
  | cons call calls induction =>
      rw [List.foldlM_cons]
      cases call with
      | included range =>
          rw [jsApiAdd, rangesAddInclude, addedIncludes, addedExcludes,
            List.foldlM_cons]
          cases rangesAdd gArraySort lists.includeRanges range with
          | error failure => simp [bind, Except.bind]
          | ok includeRanges => exact induction
      | excluded range =>
          rw [jsApiAdd, rangesAddExclude, addedIncludes, addedExcludes,
            List.foldlM_cons]
          cases rangesAdd gArraySort lists.excludeRanges range with
          | error failure => simp [bind, Except.bind]
          | ok excludeRanges => exact induction

theorem jsApiAdd_fatal
    (fatal : calls.foldlM (jsApiAdd gArraySort) lists = .error failure) :
    failure = .overlapping := by
  induction calls generalizing lists with
  | nil => cases fatal
  | cons call calls induction =>
      rw [List.foldlM_cons] at fatal
      cases added : jsApiAdd gArraySort lists call with
      | error other =>
          rw [added] at fatal
          cases fatal
          cases call with
          | included range | excluded range =>
              simp only [jsApiAdd, rangesAddInclude, rangesAddExclude, rangesAdd,
                bind, Except.bind] at added
              split at added
              · rename_i sorted
                cases added
                exact sortAndCheck_fatal sorted
              · cases added
      | ok next =>
          rw [added] at fatal
          exact induction fatal

section

variable (permutes : Qsort.Permutes gArraySort)
    (isIncluded : envRanges modules instRanges = .ok included)
    (isExcluded : envRanges modules excludeRanges = .ok excluded)
include permutes isIncluded isExcluded

theorem initialise_eq :
    initialise modules gArraySort instRanges excludeRanges calls =
      sortAndCheck gArraySort included >>= fun includeRanges =>
        sortAndCheck gArraySort excluded >>= fun excludeRanges =>
          calls.foldlM (jsApiAdd gArraySort) ⟨includeRanges, excludeRanges⟩ >>=
            fun lists => .ok { lists with
              includeRanges := includedOrAll lists.includeRanges } := by
  rw [initialise, rangesConfig, collectRanges_eq permutes isIncluded,
    collectRanges_eq permutes isExcluded]
  cases sortAndCheck gArraySort included with
  | error failure => rfl
  | ok includeRanges =>
      cases sortAndCheck gArraySort excluded with
      | error failure => rfl
      | ok excludeRanges => rfl

/-- The program goes on if both lists do. -/
theorem initialise_ok :
    initialise modules gArraySort instRanges excludeRanges calls = .ok final ↔
      ∃ includes excludes,
        collectAll gArraySort included (addedIncludes calls) = .ok includes ∧
        collectAll gArraySort excluded (addedExcludes calls) = .ok excludes ∧
        final = ⟨includedOrAll includes, excludes⟩ := by
  rw [initialise_eq permutes isIncluded isExcluded]
  simp only [collectAll]
  cases sortAndCheck gArraySort included with
  | error failure => simp [bind, Except.bind]
  | ok includeRanges =>
      cases sortAndCheck gArraySort excluded with
      | error failure => simp [bind, Except.bind]
      | ok excludeRanges =>
          simp only [ok_bind]
          constructor
          · intro returned
            obtain ⟨lists, called, same⟩ := bind_returns returned
            have both := jsApiAdd_ok.mp called
            cases same
            exact ⟨_, _, both.1, both.2, rfl⟩
          · intro both
            obtain ⟨includes, excludes, first, second, rfl⟩ := both
            have called : calls.foldlM (jsApiAdd gArraySort)
                ⟨includeRanges, excludeRanges⟩ = .ok ⟨includes, excludes⟩ :=
              jsApiAdd_ok.mpr ⟨first, second⟩
            rw [called]
            rfl

theorem initialise_fatal
    (fatal : initialise modules gArraySort instRanges excludeRanges calls =
      .error failure) : failure = .overlapping := by
  rw [initialise_eq permutes isIncluded isExcluded] at fatal
  cases sorted : sortAndCheck gArraySort included with
  | error other =>
      rw [sorted] at fatal
      cases fatal
      exact sortAndCheck_fatal sorted
  | ok includeRanges =>
      cases sorted' : sortAndCheck gArraySort excluded with
      | error other =>
          rw [sorted, sorted'] at fatal
          cases fatal
          exact sortAndCheck_fatal sorted'
      | ok excludeRanges =>
          rw [sorted, sorted', ok_bind, ok_bind] at fatal
          cases called : calls.foldlM (jsApiAdd gArraySort)
              ⟨includeRanges, excludeRanges⟩ with
          | error other =>
              rw [called] at fatal
              cases fatal
              exact jsApiAdd_fatal called
          | ok lists =>
              rw [called] at fatal
              cases fatal

end

theorem includedOrAll_sorted {ranges : List GumMemoryRange}
    (sorted : SortedByBase ranges) : SortedByBase (includedOrAll ranges) := by
  rw [includedOrAll]
  split
  · rename_i empty
    rw [List.length_eq_zero_iff.mp empty]
    exact List.pairwise_singleton _ _
  · exact sorted

/-- The lists are as claimed, whatever `g_array_sort` does, where two ranges
overlap or the ranges of each list are well ordered. -/
theorem initialise_right_iff
    (boundedModules : ∀ details ∈ modules, details.range.NoOverflow)
    (boundedCalls : ∀ call ∈ calls, call.range.NoOverflow)
    (isIncluded : envRanges modules instRanges = .ok included)
    (isExcluded : envRanges modules excludeRanges = .ok excluded) :
    (∀ gArraySort, Qsort.SortsStably gArraySort →
      Right (included ++ addedIncludes calls)
        (excluded ++ addedExcludes calls)
        (initialise modules gArraySort instRanges excludeRanges calls)) ↔
      (¬ PairwiseDisjoint (included ++ addedIncludes calls) ∨
        ¬ PairwiseDisjoint (excluded ++ addedExcludes calls)) ∨
      (WellOrdered (included ++ addedIncludes calls) ∧
        WellOrdered (excluded ++ addedExcludes calls)) := by
  have bounded : ∀ range ∈ included ++ addedIncludes calls, range.NoOverflow := by
    intro range member
    cases List.mem_append.mp member with
    | inl first => exact envRanges_bounded boundedModules isIncluded range first
    | inr added =>
        obtain ⟨call, isCall, rfl⟩ := mem_addedIncludes added
        exact boundedCalls call isCall
  have bounded' : ∀ range ∈ excluded ++ addedExcludes calls, range.NoOverflow := by
    intro range member
    cases List.mem_append.mp member with
    | inl first => exact envRanges_bounded boundedModules isExcluded range first
    | inr added =>
        obtain ⟨call, isCall, rfl⟩ := mem_addedExcludes added
        exact boundedCalls call isCall
  constructor
  · intro right
    by_cases overlaps : ¬ PairwiseDisjoint (included ++ addedIncludes calls) ∨
        ¬ PairwiseDisjoint (excluded ++ addedExcludes calls)
    · exact .inl overlaps
    · rw [not_or, not_not, not_not] at overlaps
      have accepted : ∀ gArraySort, Qsort.SortsStably gArraySort →
          ∃ includes excludes,
            collectAll gArraySort included (addedIncludes calls) = .ok includes ∧
            collectAll gArraySort excluded (addedExcludes calls) = .ok excludes := by
        intro gArraySort sorts
        obtain ⟨final, returned⟩ :=
          (right gArraySort sorts).accepted overlaps.1 overlaps.2
        obtain ⟨includes, excludes, first, second, _⟩ :=
          (initialise_ok sorts.permutes isIncluded isExcluded).mp returned
        exact ⟨includes, excludes, first, second⟩
      refine .inr ⟨wellOrdered_of_accepted bounded ?_,
        wellOrdered_of_accepted bounded' ?_⟩
      · intro gArraySort sorts
        obtain ⟨includes, _, first, _⟩ := accepted gArraySort sorts
        exact ⟨includes, first⟩
      · intro gArraySort sorts
        obtain ⟨_, excludes, _, second⟩ := accepted gArraySort sorts
        exact ⟨excludes, second⟩
  · intro condition gArraySort sorts
    have permutes := sorts.permutes
    have returned : ∀ final,
        initialise modules gArraySort instRanges excludeRanges calls = .ok final →
          ∃ includes excludes, includes.Perm (included ++ addedIncludes calls) ∧
            InOrder includes ∧
            excludes.Perm (excluded ++ addedExcludes calls) ∧
            InOrder excludes ∧ final = ⟨includedOrAll includes, excludes⟩ := by
      intro final isFinal
      obtain ⟨includes, excludes, first, second, same⟩ :=
        (initialise_ok permutes isIncluded isExcluded).mp isFinal
      have order := collectAll_inOrder permutes bounded first
      have order' := collectAll_inOrder permutes bounded' second
      exact ⟨includes, excludes, order.1, order.2, order'.1, order'.2, same⟩
    refine ⟨?_, ?_, ?_⟩
    · intro final isFinal
      obtain ⟨includes, excludes, _, inOrder, _, inOrder', rfl⟩ :=
        returned final isFinal
      exact ⟨includedOrAll_sorted inOrder.sorted, inOrder'.sorted⟩
    · intro disjoint disjoint'
      obtain ⟨ordered, ordered'⟩ := condition.resolve_left fun overlaps =>
        overlaps.elim (· disjoint) (· disjoint')
      obtain ⟨includes, first⟩ := ordered.accepted sorts bounded
      obtain ⟨excludes, second⟩ := ordered'.accepted sorts bounded'
      exact ⟨_, (initialise_ok permutes isIncluded isExcluded).mpr
        ⟨includes, excludes, first, second, rfl⟩⟩
    · intro overlaps
      cases outcome : initialise modules gArraySort instRanges excludeRanges calls with
      | error failure =>
          rw [initialise_fatal permutes isIncluded isExcluded outcome]
      | ok final =>
          obtain ⟨includes, excludes, perm, inOrder, perm', inOrder', _⟩ :=
            returned final outcome
          have disjoint := inOrder.disjoint.perm perm
          have disjoint' := inOrder'.disjoint.perm perm'
          exact absurd overlaps (not_or.mpr
            ⟨not_not.mpr disjoint, not_not.mpr disjoint'⟩)

end Both

/-! ## Ranges that lie close together -/

theorem rangeSort_close (close : a.start < b.start + 2 ^ 31)
    (close' : b.start < a.start + 2 ^ 31) :
    rangeSort a b = (a.start : Int) - b.start := by
  simp only [GumMemoryRange.start] at close close' ⊢
  rw [rangeSort, BitVec.toInt_setWidth, BitVec.toNat_sub, Int.bmod_def]
  omega

/-- Disjoint ranges that are not empty are accepted if all their bases are less
than `2 ^ 31` apart. -/
theorem wellOrdered_of_close {ranges : List GumMemoryRange}
    (close : ∀ a ∈ ranges, ∀ b ∈ ranges, a.start < b.start + 2 ^ 31)
    (nonempty : ∀ range ∈ ranges, range.start < range.stop)
    (disjoint : PairwiseDisjoint ranges) : WellOrdered ranges where
  consistent := Qsort.consistent_of_difference
    (fun range => (range.start : Int)) fun a first b second =>
      rangeSort_close (close a first b second) (close b second a first)
  separated := by
    apply List.Pairwise.imp_of_mem _ disjoint
    intro a b first second apart
    rw [rangeSort_close (close a first b second) (close b second a first)]
    have filled := nonempty a first
    have filled' := nonempty b second
    have notB : ¬ (a.start ≤ b.start ∧ b.start < a.stop) := fun inside =>
      apart b.baseAddress ⟨inside, Nat.le_refl _, filled'⟩
    have notA : ¬ (b.start ≤ a.start ∧ a.start < b.stop) := fun inside =>
      apart a.baseAddress ⟨⟨Nat.le_refl _, filled⟩, inside⟩
    by_cases order : (a.start : Int) - b.start ≤ 0
    · rw [if_pos order]
      omega
    · rw [if_neg order]
      omega

/-- One range from the environment and one from a call. -/
theorem initialise_right_iff_twoRanges :
    let envVal := some "0x1000-0x2000".toList
    let calls := [AddedRange.included ⟨0x8000, 0x100⟩]
    envRanges [] envVal = .ok [⟨0x1000, 0x1000⟩] ∧
      ∀ gArraySort, Qsort.SortsStably gArraySort →
        Right [⟨0x1000, 0x1000⟩, ⟨0x8000, 0x100⟩] []
          (initialise [] gArraySort envVal none calls) := by
  have converted : envRanges [] (some "0x1000-0x2000".toList) =
      .ok [⟨0x1000, 0x1000⟩] := by decide
  refine ⟨converted, ?_⟩
  apply (@initialise_right_iff [] (some "0x1000-0x2000".toList) none _ []
    [.included ⟨0x8000, 0x100⟩] nofun (by decide) converted rfl).mpr
  refine .inr ⟨wellOrdered_of_close (by decide) (by decide) ?_,
    wellOrdered_of_close nofun nofun .nil⟩
  apply InOrder.disjoint
  exact List.pairwise_pair.mpr (by decide)

/-- Two ranges more than `2 ^ 32` apart. -/
def farApart : List AddedRange :=
  [.included ⟨0x1000, 0x1000⟩, .included ⟨0x100000800, 0x800⟩]

/-- The two ranges are disjoint, but are rejected as overlapping. -/
theorem initialise_farApart :
    Qsort.SortsStably (@Qsort.insertionSort GumMemoryRange) ∧
      PairwiseDisjoint (addedIncludes farApart) ∧
      initialise [] Qsort.insertionSort none none farApart = .error .overlapping ∧
      ¬ Right (addedIncludes farApart) []
        (initialise [] Qsort.insertionSort none none farApart) := by
  have disjoint : PairwiseDisjoint (addedIncludes farApart) :=
    InOrder.disjoint (List.pairwise_pair.mpr (by decide))
  have rejected : initialise [] Qsort.insertionSort none none farApart =
      .error .overlapping := rfl
  refine ⟨Qsort.insertionSort_stable, disjoint, rejected, fun right => ?_⟩
  obtain ⟨lists, accepted⟩ := right.accepted disjoint .nil
  rw [rejected] at accepted
  cases accepted

end AFLPlusPlus.RangeConfig
