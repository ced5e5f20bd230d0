import Mathlib.Data.List.Basic
import Mathlib.Data.List.Pairwise
import Mathlib.Algebra.Order.Ring.Nat

/-!
# Ranges that are not instrumented

`ranges_init` computes from the memory map and the configured ranges which
parts of the memory FRIDA leaves alone.  Lists of ranges are intersected and
subtracted range by range, and neighbours are merged in the end.
-/

namespace AFLPlusPlus

structure GumMemoryRange where
  baseAddress : BitVec 64
  size : BitVec 64
  deriving DecidableEq

namespace GumMemoryRange

def limit (range : GumMemoryRange) : BitVec 64 := range.baseAddress + range.size

def NoOverflow (range : GumMemoryRange) : Prop :=
  range.baseAddress.toNat + range.size.toNat < 2 ^ 64

instance (range : GumMemoryRange) : Decidable range.NoOverflow :=
  inferInstanceAs (Decidable (_ < _))

def start (range : GumMemoryRange) : Nat := range.baseAddress.toNat

def stop (range : GumMemoryRange) : Nat := range.baseAddress.toNat + range.size.toNat

def Contains (range : GumMemoryRange) (address : BitVec 64) : Prop :=
  range.start ≤ address.toNat ∧ address.toNat < range.stop

end GumMemoryRange

def GMaxUlong : BitVec 64 := BitVec.allOnes 64

/-- `false` if `ra` lies before `rb`; else the common part, which is empty if
`ra` lies behind `rb`. -/
def intersectRange (ra rb : GumMemoryRange) : Bool × GumMemoryRange :=
  if ra.limit < rb.baseAddress then (false, ⟨0, 0⟩)
  else if rb.limit < ra.baseAddress then (true, ⟨0, 0⟩)
  else
    let rrb := if rb.baseAddress < ra.baseAddress then ra.baseAddress
      else rb.baseAddress
    let rrl := if ra.limit < rb.limit then ra.limit else rb.limit
    (true, ⟨rrb, rrl - rrb⟩)

/-- The inner loop of `intersect_ranges`. -/
def intersectRow (ra : GumMemoryRange) : List GumMemoryRange → List GumMemoryRange
  | [] => []
  | rb :: rest =>
      match intersectRange ra rb with
      | (false, _) => []
      | (true, ri) =>
          if ri.size = 0 then intersectRow ra rest
          else ri :: intersectRow ra rest

def intersectRanges (a b : List GumMemoryRange) : List GumMemoryRange :=
  a.flatMap fun ra => intersectRow ra b

/-- The inner loop of `subtract_ranges`: what it appends to the result, and what
is left in `ra`. -/
def subtractRow (ral : BitVec 64) (ra : GumMemoryRange) :
    List GumMemoryRange → List GumMemoryRange × GumMemoryRange
  | [] => ([], ra)
  | rb :: rest =>
      match intersectRange ra rb with
      | (false, _) => ([], ra)
      | (true, ri) =>
          if ri.size = 0 then subtractRow ral ra rest
          else
            let front :=
              if ra.baseAddress < ri.baseAddress then
                [(⟨ra.baseAddress, ri.baseAddress - ra.baseAddress⟩ : GumMemoryRange)]
              else []
            if ral < ri.baseAddress + ri.size then (front, ⟨ral, 0⟩)
            else
              let base := ri.baseAddress + ri.size
              let (appended, left) := subtractRow ral ⟨base, ral - base⟩ rest
              (front ++ appended, left)

/-- What is appended for a range, with what is left of it. -/
def rowPieces (row : List GumMemoryRange × GumMemoryRange) : List GumMemoryRange :=
  if row.2.size ≠ 0 then row.1 ++ [row.2] else row.1

/-- The result, and the ranges of `a`, which are changed in place. -/
def subtractRanges (a b : List GumMemoryRange) :
    List GumMemoryRange × List GumMemoryRange :=
  (a.flatMap fun ra => rowPieces (subtractRow ra.limit ra b),
    a.map fun ra => (subtractRow ra.limit ra b).2)

/-- The loop of `merge_ranges`, where `rp` is the range that grows. -/
def mergeFrom (rp : GumMemoryRange) : List GumMemoryRange → List GumMemoryRange
  | [] => [rp]
  | r :: rest =>
      if rp.baseAddress + rp.size = r.baseAddress then
        mergeFrom ⟨rp.baseAddress, rp.size + r.size⟩ rest
      else rp :: mergeFrom r rest

def mergeRanges : List GumMemoryRange → List GumMemoryRange
  | [] => []
  | r :: rest => mergeFrom r rest

/-- The lists of ranges; `ranges` is not there before `ranges_init`. -/
structure RangeLists where
  moduleRanges : List GumMemoryRange
  libsRanges : List GumMemoryRange
  jitRanges : List GumMemoryRange
  includeRanges : List GumMemoryRange
  excludeRanges : List GumMemoryRange
  ranges : Option (List GumMemoryRange)

/-- The include ranges; if there is none, everything is included. -/
def includedOrAll (includeRanges : List GumMemoryRange) : List GumMemoryRange :=
  if includeRanges.length = 0 then includeRanges ++ [⟨0, GMaxUlong⟩]
  else includeRanges

/-- `ranges_init`, where the modules, the libs range and the JIT ranges are
collected from the process. -/
def rangesInit (modules jit : List GumMemoryRange) (libs : GumMemoryRange)
    (lists : RangeLists) : RangeLists :=
  let includeRanges := includedOrAll lists.includeRanges
  let step1 := intersectRanges modules [libs]
  let step2 := intersectRanges step1 includeRanges
  let step3 := (subtractRanges step2 lists.excludeRanges).1
  let step4 := (subtractRanges step3 jit).1
  let step5 := subtractRanges modules step4
  { lists with
    moduleRanges := step5.2
    libsRanges := [libs]
    jitRanges := jit
    includeRanges := includeRanges
    ranges := some (mergeRanges step5.1) }

/-- The loop of `range_is_excluded`. -/
def excludedBy (test : BitVec 64) : List GumMemoryRange → Bool
  | [] => false
  | curr :: rest =>
      if test < curr.baseAddress then false
      else if test < curr.limit then true
      else excludedBy test rest

def rangeIsExcluded (lists : RangeLists) (test : BitVec 64) : Bool :=
  match lists.ranges with
  | none => false
  | some ranges => excludedBy test ranges

/-- Sorted, pairwise disjoint and without overflow.  Ranges may be empty. -/
structure RangeList (ranges : List GumMemoryRange) : Prop where
  sorted : ranges.Pairwise fun first second => first.start ≤ second.start
  disjoint : ranges.Pairwise fun first second =>
    ∀ address, ¬ (first.Contains address ∧ second.Contains address)
  bounded : ∀ range ∈ ranges, range.NoOverflow

/-- Nonempty ranges in order. -/
structure Tidy (ranges : List GumMemoryRange) : Prop where
  ordered : ranges.Pairwise fun first second => first.stop ≤ second.start
  nonempty : ∀ range ∈ ranges, range.start < range.stop
  bounded : ∀ range ∈ ranges, range.NoOverflow

/-- Some range of the list contains the address. -/
def Covers (ranges : List GumMemoryRange) (address : BitVec 64) : Prop :=
  ∃ range ∈ ranges, range.Contains address

namespace GumMemoryRange

variable {range ra rb : GumMemoryRange} {address : BitVec 64}

theorem NoOverflow.limit_toNat (bounded : range.NoOverflow) :
    range.limit.toNat = range.stop := by
  rw [limit, BitVec.toNat_add, Nat.mod_eq_of_lt bounded]
  rfl

theorem size_eq_zero : range.size = 0 ↔ range.stop ≤ range.start := by
  unfold start stop
  rw [← BitVec.toNat_inj]
  simp

theorem start_le_stop : range.start ≤ range.stop := Nat.le_add_right _ _

end GumMemoryRange

theorem covers_nil {address : BitVec 64} : ¬ Covers [] address := by
  rintro ⟨_, member, _⟩
  exact List.not_mem_nil member

theorem covers_cons {range : GumMemoryRange} {ranges : List GumMemoryRange}
    {address : BitVec 64} :
    Covers (range :: ranges) address ↔
      range.Contains address ∨ Covers ranges address := by
  simp only [Covers, List.mem_cons, exists_eq_or_imp]

theorem covers_append {first second : List GumMemoryRange}
    {address : BitVec 64} :
    Covers (first ++ second) address ↔
      Covers first address ∨ Covers second address := by
  simp only [Covers, List.mem_append, or_and_right, exists_or]

theorem covers_flatMap {ranges : List GumMemoryRange}
    {pieces : GumMemoryRange → List GumMemoryRange} {address : BitVec 64} :
    Covers (ranges.flatMap pieces) address ↔
      ∃ range ∈ ranges, Covers (pieces range) address := by
  simp only [Covers, List.mem_flatMap]
  constructor
  · rintro ⟨piece, ⟨range, inRanges, inPieces⟩, contains⟩
    exact ⟨range, inRanges, piece, inPieces, contains⟩
  · rintro ⟨range, inRanges, piece, inPieces, contains⟩
    exact ⟨piece, ⟨range, inRanges, inPieces⟩, contains⟩

end AFLPlusPlus
