import AFLPlusPlus.Frida.Ranges

/-!
# What the lists of ranges contain

Intersecting and subtracting sorted lists is intersecting and subtracting their
addresses.  Every list on the way is in order, so that the next step can rely on
it.
-/

namespace AFLPlusPlus

/-- The three outcomes of `intersectRange`. -/
inductive Intersects (ra rb : GumMemoryRange) : Bool × GumMemoryRange → Prop
  | before (ends : ra.stop < rb.start) : Intersects ra rb (false, ⟨0, 0⟩)
  | apart {ri : GumMemoryRange} (empty : ri.size = 0)
      (ends : min ra.stop rb.stop ≤ max ra.start rb.start) :
      Intersects ra rb (true, ri)
  | overlap {ri : GumMemoryRange} (nonempty : ri.size ≠ 0)
      (start : ri.start = max ra.start rb.start)
      (stop : ri.stop = min ra.stop rb.stop) : Intersects ra rb (true, ri)

section Intersect

variable {ra rb : GumMemoryRange}

theorem intersectRange_intersects (boundedA : ra.NoOverflow)
    (boundedB : rb.NoOverflow) : Intersects ra rb (intersectRange ra rb) := by
  have ral := boundedA.limit_toNat
  have rbl := boundedB.limit_toNat
  unfold intersectRange
  split
  · rename_i ends
    refine .before ?_
    rw [BitVec.lt_def, ral] at ends
    exact ends
  · rename_i reaches
    rw [BitVec.lt_def, ral] at reaches
    split
    · rename_i ends
      rw [BitVec.lt_def, rbl] at ends
      refine .apart rfl ?_
      unfold GumMemoryRange.start GumMemoryRange.stop at *
      omega
    · rename_i reaches'
      rw [BitVec.lt_def, rbl] at reaches'
      let rrb := if rb.baseAddress < ra.baseAddress then ra.baseAddress
        else rb.baseAddress
      let rrl := if ra.limit < rb.limit then ra.limit else rb.limit
      have base : rrb.toNat = max ra.start rb.start := by
        dsimp only [rrb]
        unfold GumMemoryRange.start
        split <;> bv_omega
      have last : rrl.toNat = min ra.stop rb.stop := by
        dsimp only [rrl]
        split <;> bv_omega
      have le : rrb.toNat ≤ rrl.toNat := by
        rw [base, last]
        unfold GumMemoryRange.start GumMemoryRange.stop at *
        omega
      have size : (rrl - rrb).toNat = rrl.toNat - rrb.toNat :=
        BitVec.toNat_sub_of_le le
      by_cases empty : rrl - rrb = 0
      · refine .apart empty ?_
        rw [← base, ← last]
        have zero := congrArg BitVec.toNat empty
        rw [size] at zero
        simp at zero
        omega
      · refine .overlap empty base ?_
        change rrb.toNat + (rrl - rrb).toNat = _
        omega

end Intersect

/-- Pieces in order that lie in a range. -/
structure Inside (outer : GumMemoryRange) (pieces : List GumMemoryRange) : Prop where
  tidy : Tidy pieces
  inside : ∀ piece ∈ pieces, outer.start ≤ piece.start ∧ piece.stop ≤ outer.stop

theorem Tidy.nil : Tidy [] where
  ordered := .nil
  nonempty := nofun
  bounded := nofun

theorem Tidy.cons {piece : GumMemoryRange} {pieces : List GumMemoryRange}
    (bounded : piece.NoOverflow) (nonempty : piece.start < piece.stop)
    (behind : ∀ later ∈ pieces, piece.stop ≤ later.start)
    (tidy : Tidy pieces) : Tidy (piece :: pieces) where
  ordered := .cons behind tidy.ordered
  nonempty := List.forall_mem_cons.mpr ⟨nonempty, tidy.nonempty⟩
  bounded := List.forall_mem_cons.mpr ⟨bounded, tidy.bounded⟩

theorem Tidy.append {front back : List GumMemoryRange} (first : Tidy front)
    (second : Tidy back)
    (behind : ∀ piece ∈ front, ∀ later ∈ back, piece.stop ≤ later.start) :
    Tidy (front ++ back) where
  ordered := List.pairwise_append.mpr ⟨first.ordered, second.ordered, behind⟩
  nonempty := List.forall_mem_append.mpr ⟨first.nonempty, second.nonempty⟩
  bounded := List.forall_mem_append.mpr ⟨first.bounded, second.bounded⟩

theorem Tidy.covers_base {pieces : List GumMemoryRange} (tidy : Tidy pieces)
    {piece : GumMemoryRange} (member : piece ∈ pieces) :
    Covers pieces piece.baseAddress :=
  ⟨piece, member, Nat.le_refl _, tidy.nonempty piece member⟩

/-- A sorted list of ranges without overflow. -/
structure SortedList (ranges : List GumMemoryRange) : Prop where
  sorted : ranges.Pairwise fun first second => first.start ≤ second.start
  bounded : ∀ range ∈ ranges, range.NoOverflow

variable {address : BitVec 64} {range : GumMemoryRange} {ranges : List GumMemoryRange}

section

variable (list : SortedList (range :: ranges))
include list

theorem SortedList.tail : SortedList ranges where
  sorted := (List.pairwise_cons.mp list.sorted).2
  bounded := fun other member =>
    list.bounded other (List.mem_cons_of_mem _ member)

theorem SortedList.head : range.NoOverflow := list.bounded range List.mem_cons_self

theorem SortedList.not_covers (before : address.toNat < range.start) :
    ¬ Covers (range :: ranges) address := by
  rintro ⟨other, member, contains⟩
  have less : range.start ≤ other.start := by
    rcases List.mem_cons.mp member with rfl | later
    · exact Nat.le_refl _
    · exact (List.pairwise_cons.mp list.sorted).1 other later
  have from_start := contains.1
  omega

end

theorem RangeList.sortedList (list : RangeList ranges) : SortedList ranges where
  sorted := list.sorted
  bounded := list.bounded

theorem RangeList.tail (list : RangeList (range :: ranges)) : RangeList ranges where
  sorted := (List.pairwise_cons.mp list.sorted).2
  disjoint := (List.pairwise_cons.mp list.disjoint).2
  bounded := fun other member =>
    list.bounded other (List.mem_cons_of_mem _ member)

theorem RangeList.stop_le (list : RangeList (range :: ranges))
    (covered : Covers ranges address) :
    range.stop ≤ address.toNat := by
  obtain ⟨other, member, contains⟩ := covered
  have less := (List.pairwise_cons.mp list.sorted).1 other member
  have apart := (List.pairwise_cons.mp list.disjoint).1 other member address
  by_contra inside
  refine apart ⟨⟨?_, by omega⟩, contains⟩
  exact Nat.le_trans less contains.1

theorem Tidy.rangeList (tidy : Tidy ranges) : RangeList ranges where
  sorted := tidy.ordered.imp fun behind =>
    Nat.le_trans GumMemoryRange.start_le_stop behind
  disjoint := tidy.ordered.imp fun behind address both => by
    have before := both.1.2
    have after := both.2.1
    omega
  bounded := tidy.bounded

section Rows

variable {ra : GumMemoryRange} (boundedA : ra.NoOverflow)
  {b : List GumMemoryRange}
include boundedA

theorem intersectRow_covers (list : SortedList b) (address : BitVec 64) :
    Covers (intersectRow ra b) address ↔ ra.Contains address ∧ Covers b address := by
  induction b with
  | nil => simp only [intersectRow, covers_nil, and_false]
  | cons rb rest induction =>
      have rule := induction list.tail
      have outcome := intersectRange_intersects boundedA list.head
      unfold intersectRow
      generalize intersectRange ra rb = result at outcome
      cases outcome with
      | before ends =>
          refine iff_of_false covers_nil fun both => ?_
          have inside := both.1.2
          exact list.not_covers (by omega) both.2
      | apart empty ends =>
          simp only [if_pos empty, rule, covers_cons]
          unfold GumMemoryRange.Contains
          constructor
          · exact fun both => ⟨both.1, .inr both.2⟩
          · rintro ⟨inA, inB | inRest⟩
            · omega
            · exact ⟨inA, inRest⟩
      | overlap nonempty start stop =>
          simp only [if_neg nonempty, rule, covers_cons, and_or_left]
          apply or_congr_left
          unfold GumMemoryRange.Contains
          rw [start, stop]
          omega

theorem intersectRow_inside (list : RangeList b) : Inside ra (intersectRow ra b) := by
  induction b with
  | nil => exact ⟨.nil, nofun⟩
  | cons rb rest induction =>
      have rule := induction list.tail
      have covers := intersectRow_covers boundedA list.tail.sortedList
      have outcome := intersectRange_intersects boundedA list.sortedList.head
      unfold intersectRow
      generalize intersectRange ra rb = result at outcome
      cases outcome with
      | before ends => exact ⟨.nil, nofun⟩
      | apart empty ends =>
          simp only [if_pos empty]
          exact rule
      | @overlap ri nonempty start stop =>
          simp only [if_neg nonempty]
          have inside : ra.start ≤ ri.start ∧ ri.stop ≤ ra.stop := by omega
          have isNonempty : ri.start < ri.stop :=
            Nat.lt_of_not_le (mt GumMemoryRange.size_eq_zero.mpr nonempty)
          refine ⟨.cons ?_ isNonempty ?_ rule.tidy,
            List.forall_mem_cons.mpr ⟨inside, rule.inside⟩⟩
          · have fits : ra.stop < 2 ^ 64 := boundedA
            exact Nat.lt_of_le_of_lt inside.2 fits
          · intro later member
            have behind := list.stop_le
              ((covers _).mp (rule.tidy.covers_base member)).2
            exact Nat.le_trans (by omega) behind

end Rows

section Subtract

theorem rowPieces_whole {ra : GumMemoryRange} (bounded : ra.NoOverflow) :
    Inside ra (rowPieces ([], ra)) ∧
      ∀ address, Covers (rowPieces ([], ra)) address ↔ ra.Contains address := by
  unfold rowPieces
  by_cases empty : ra.size = 0
  · rw [if_neg (not_not.mpr empty)]
    have none := GumMemoryRange.size_eq_zero.mp empty
    refine ⟨⟨.nil, nofun⟩, fun address => iff_of_false covers_nil ?_⟩
    intro contains
    have first := contains.1
    have last := contains.2
    omega
  · rw [if_pos empty, List.nil_append]
    have some := Nat.lt_of_not_le (mt GumMemoryRange.size_eq_zero.mpr empty)
    refine ⟨⟨.cons bounded some nofun .nil, ?_⟩, fun address => ?_⟩
    · intro piece member
      obtain rfl := List.mem_singleton.mp member
      exact ⟨Nat.le_refl _, Nat.le_refl _⟩
    · simp only [covers_cons, covers_nil, or_false]

theorem rowPieces_append (front appended : List GumMemoryRange)
    (left : GumMemoryRange) :
    rowPieces (front ++ appended, left) = front ++ rowPieces (appended, left) := by
  unfold rowPieces
  split
  · exact List.append_assoc _ _ _
  · rfl

theorem front_pieces {ra ri : GumMemoryRange} (boundedA : ra.NoOverflow)
    (start : ra.start ≤ ri.start) (stop : ri.start ≤ ra.stop) :
    let front :=
      if ra.baseAddress < ri.baseAddress then
        [(⟨ra.baseAddress, ri.baseAddress - ra.baseAddress⟩ : GumMemoryRange)]
      else []
    Tidy front ∧ (∀ piece ∈ front, ra.start ≤ piece.start ∧ piece.stop ≤ ri.start) ∧
      ∀ address, Covers front address ↔
        ra.start ≤ address.toNat ∧ address.toNat < ri.start := by
  intro front
  have fits : ra.stop < 2 ^ 64 := boundedA
  by_cases less : ra.baseAddress < ri.baseAddress
  · let piece : GumMemoryRange := ⟨ra.baseAddress, ri.baseAddress - ra.baseAddress⟩
    have isFront : front = [piece] := if_pos less
    have size : (ri.baseAddress - ra.baseAddress).toNat = ri.start - ra.start :=
      BitVec.toNat_sub_of_le (BitVec.le_of_lt less)
    have pieceStop : piece.stop = ri.start := by
      change ra.start + (ri.baseAddress - ra.baseAddress).toNat = _
      omega
    have pieceStart : piece.start = ra.start := rfl
    have before : ra.start < ri.start := less
    rw [isFront]
    refine ⟨.cons ?_ (by omega) nofun .nil, ?_, fun address => ?_⟩
    · change piece.stop < 2 ^ 64
      omega
    · intro other member
      obtain rfl := List.mem_singleton.mp member
      omega
    · rw [covers_cons, ← pieceStop]
      exact or_iff_left covers_nil
  · have isFront : front = [] := if_neg less
    have same : ri.start ≤ ra.start := Nat.le_of_not_lt less
    rw [isFront]
    refine ⟨.nil, nofun, fun address => iff_of_false covers_nil ?_⟩
    omega

theorem subtractRow_pieces {b : List GumMemoryRange} (list : SortedList b)
    {ra : GumMemoryRange} (boundedA : ra.NoOverflow) {ral : BitVec 64}
    (limit : ral.toNat = ra.stop) :
    Inside ra (rowPieces (subtractRow ral ra b)) ∧
      ∀ address, Covers (rowPieces (subtractRow ral ra b)) address ↔
        ra.Contains address ∧ ¬ Covers b address := by
  induction b generalizing ra with
  | nil =>
      simp only [covers_nil, not_false_eq_true, and_true]
      exact rowPieces_whole boundedA
  | cons rb rest induction =>
      have outcome := intersectRange_intersects boundedA list.head
      unfold subtractRow
      generalize intersectRange ra rb = result at outcome
      cases outcome with
      | before ends =>
          obtain ⟨inside, covers⟩ := rowPieces_whole boundedA
          refine ⟨inside, fun address => (covers address).trans ?_⟩
          refine (and_iff_left_of_imp fun contains => ?_).symm
          have last := contains.2
          exact list.not_covers (by omega)
      | apart empty ends =>
          simp only [if_pos empty]
          obtain ⟨inside, covers⟩ := induction list.tail boundedA limit
          refine ⟨inside, fun address => (covers address).trans ?_⟩
          rw [covers_cons]
          refine and_congr_right fun contains => not_congr ?_
          refine (or_iff_right fun contains' => ?_).symm
          unfold GumMemoryRange.Contains at contains contains'
          omega
      | @overlap ri nonempty start stop =>
          have some : ri.start < ri.stop :=
            Nat.lt_of_not_le (mt GumMemoryRange.size_eq_zero.mpr nonempty)
          have fits : ra.stop < 2 ^ 64 := boundedA
          have boundedI : ri.NoOverflow := by
            change ri.stop < 2 ^ 64
            omega
          have isBase : (ri.baseAddress + ri.size).toNat = ri.stop :=
            boundedI.limit_toNat
          have notPast : ¬ ral < ri.baseAddress + ri.size := by
            rw [BitVec.lt_def, isBase, limit]
            omega
          let base := ri.baseAddress + ri.size
          let next : GumMemoryRange := ⟨base, ral - base⟩
          have nextStart : next.start = ri.stop := isBase
          have nextStop : next.stop = ra.stop := by
            have size : (ral - base).toNat = ral.toNat - base.toNat :=
              BitVec.toNat_sub_of_le (BitVec.not_lt.mp notPast)
            change base.toNat + (ral - base).toNat = _
            have isBase' : base.toNat = ri.stop := isBase
            omega
          have boundedN : next.NoOverflow := by
            change next.stop < 2 ^ 64
            omega
          obtain ⟨inside, covers⟩ := induction list.tail boundedN
            (limit.trans nextStop.symm)
          obtain ⟨tidyF, insideF, coversF⟩ :=
            @front_pieces ra ri boundedA (by omega) (by omega)
          simp only [if_neg nonempty, if_neg notPast, rowPieces_append]
          refine ⟨⟨tidyF.append inside.tidy ?_, ?_⟩, fun address => ?_⟩
          · intro piece member later member'
            have first := (insideF piece member).2
            have second := (inside.inside later member').1
            omega
          · refine List.forall_mem_append.mpr ⟨fun piece member => ?_,
              fun piece member => ?_⟩
            · have bounds := insideF piece member
              omega
            · have bounds := inside.inside piece member
              omega
          · rw [covers_append, coversF, covers, covers_cons]
            have behind : address.toNat < rb.start → ¬ Covers rest address :=
              fun before covered => list.not_covers before
                (covers_cons.mpr (.inr covered))
            unfold GumMemoryRange.Contains
            rw [nextStart, nextStop]
            by_cases covered : Covers rest address
            · have from_start : rb.start ≤ address.toNat :=
                Nat.le_of_not_lt fun before => behind before covered
              simp only [covered, not_true_eq_false, or_true, and_false,
                or_false, iff_false]
              omega
            · simp only [covered, not_false_eq_true, and_true, or_false]
              omega

end Subtract

section Lists

variable {a b : List GumMemoryRange}

theorem flatMap_tidy (list : RangeList a)
    {pieces : GumMemoryRange → List GumMemoryRange}
    (inside : ∀ ra ∈ a, Inside ra (pieces ra)) : Tidy (a.flatMap pieces) := by
  induction a with
  | nil => exact .nil
  | cons ra rest induction =>
      rw [List.flatMap_cons]
      have first := inside ra List.mem_cons_self
      have later := fun other member =>
        inside other (List.mem_cons_of_mem ra member)
      refine first.tidy.append (induction list.tail later) ?_
      intro piece member piece' member'
      have before := (first.inside piece member).2
      obtain ⟨other, inRest, inPieces⟩ := List.mem_flatMap.mp member'
      have within := (later other inRest).inside piece' inPieces
      have nonempty := (later other inRest).tidy.nonempty piece' inPieces
      have covered : Covers rest piece'.baseAddress :=
        ⟨other, inRest, within.1, Nat.lt_of_lt_of_le nonempty within.2⟩
      exact Nat.le_trans before (list.stop_le covered)

section

variable (listA : RangeList a) (listB : RangeList b)
include listA listB

theorem intersectRanges_tidy : Tidy (intersectRanges a b) :=
  flatMap_tidy listA fun ra member =>
    intersectRow_inside (listA.bounded ra member) listB

theorem intersectRanges_covers (address : BitVec 64) :
    Covers (intersectRanges a b) address ↔ Covers a address ∧ Covers b address := by
  rw [intersectRanges, covers_flatMap]
  constructor
  · rintro ⟨ra, member, covered⟩
    have both := (intersectRow_covers (listA.bounded ra member)
      listB.sortedList address).mp covered
    exact ⟨⟨ra, member, both.1⟩, both.2⟩
  · rintro ⟨⟨ra, member, contains⟩, covered⟩
    exact ⟨ra, member, (intersectRow_covers (listA.bounded ra member)
      listB.sortedList address).mpr ⟨contains, covered⟩⟩

theorem subtractRanges_tidy : Tidy (subtractRanges a b).1 :=
  flatMap_tidy listA fun ra member =>
    (subtractRow_pieces listB.sortedList (listA.bounded ra member)
      (listA.bounded ra member).limit_toNat).1

theorem subtractRanges_covers (address : BitVec 64) :
    Covers (subtractRanges a b).1 address ↔ Covers a address ∧ ¬ Covers b address := by
  have row : ∀ ra ∈ a, Covers (rowPieces (subtractRow ra.limit ra b)) address ↔
      ra.Contains address ∧ ¬ Covers b address := fun ra member =>
    (subtractRow_pieces listB.sortedList (listA.bounded ra member)
      (listA.bounded ra member).limit_toNat).2 address
  rw [subtractRanges, covers_flatMap]
  constructor
  · rintro ⟨ra, member, covered⟩
    have both := (row ra member).mp covered
    exact ⟨⟨ra, member, both.1⟩, both.2⟩
  · rintro ⟨⟨ra, member, contains⟩, notCovered⟩
    exact ⟨ra, member, (row ra member).mpr ⟨contains, notCovered⟩⟩

end

end Lists

/-- Nonempty ranges in order with a gap between any two. -/
structure Separated (ranges : List GumMemoryRange) : Prop where
  apart : ranges.Pairwise fun first second => first.stop < second.start
  nonempty : ∀ range ∈ ranges, range.start < range.stop
  bounded : ∀ range ∈ ranges, range.NoOverflow

theorem Separated.tidy (separated : Separated ranges) : Tidy ranges where
  ordered := separated.apart.imp Nat.le_of_lt
  nonempty := separated.nonempty
  bounded := separated.bounded

theorem mergeFrom_separated {rp : GumMemoryRange} {rest : List GumMemoryRange}
    (tidy : Tidy (rp :: rest)) :
    Separated (mergeFrom rp rest) ∧
      (∀ range ∈ mergeFrom rp rest, rp.start ≤ range.start) ∧
      ∀ address, Covers (mergeFrom rp rest) address ↔ Covers (rp :: rest) address := by
  induction rest generalizing rp with
  | nil =>
      refine ⟨⟨List.pairwise_singleton _ _, tidy.nonempty, tidy.bounded⟩, ?_,
        fun _ => Iff.rfl⟩
      intro range member
      rw [List.mem_singleton.mp member]
  | cons r rest induction =>
      obtain ⟨ahead, ordered⟩ := List.pairwise_cons.mp tidy.ordered
      obtain ⟨nonempty, nonempties⟩ := List.forall_mem_cons.mp tidy.nonempty
      obtain ⟨bounded, boundeds⟩ := List.forall_mem_cons.mp tidy.bounded
      have rest' : Tidy (r :: rest) := ⟨ordered, nonempties, boundeds⟩
      have next := ahead r List.mem_cons_self
      have nonemptyR := nonempties r List.mem_cons_self
      have isLimit : (rp.baseAddress + rp.size).toNat = rp.stop := bounded.limit_toNat
      unfold mergeFrom
      by_cases touches : rp.baseAddress + rp.size = r.baseAddress
      · rw [if_pos touches]
        rw [touches] at isLimit
        let grown : GumMemoryRange := ⟨rp.baseAddress, rp.size + r.size⟩
        have startR : r.start = rp.stop := isLimit
        have grownStart : grown.start = rp.start := rfl
        have boundedR : r.stop < 2 ^ 64 := boundeds r List.mem_cons_self
        have grownStop : grown.stop = r.stop := by
          unfold GumMemoryRange.stop at boundedR startR ⊢
          unfold GumMemoryRange.start at startR
          change rp.baseAddress.toNat + (rp.size + r.size).toNat = _
          rw [BitVec.toNat_add, Nat.mod_eq_of_lt (by omega)]
          omega
        have merged : Tidy (grown :: rest) := by
          refine .cons ?_ (by omega) ?_
            ⟨(List.pairwise_cons.mp ordered).2, (List.forall_mem_cons.mp nonempties).2,
              (List.forall_mem_cons.mp boundeds).2⟩
          · change grown.stop < 2 ^ 64
            omega
          · intro later member
            have behind := (List.pairwise_cons.mp ordered).1 later member
            omega
        obtain ⟨separated, atLeast, covers⟩ := induction merged
        refine ⟨separated, atLeast, fun address => (covers address).trans ?_⟩
        rw [covers_cons, covers_cons, covers_cons, ← or_assoc]
        apply or_congr_left
        unfold GumMemoryRange.Contains
        omega
      · rw [if_neg touches]
        obtain ⟨separated, atLeast, covers⟩ := induction rest'
        have gap : rp.stop < r.start := by
          refine Nat.lt_of_le_of_ne next fun same => touches ?_
          exact BitVec.eq_of_toNat_eq (isLimit.trans same)
        refine ⟨⟨.cons ?_ separated.apart, ?_, ?_⟩, ?_, fun address => ?_⟩
        · exact fun later member => Nat.lt_of_lt_of_le gap (atLeast later member)
        · exact List.forall_mem_cons.mpr ⟨nonempty, separated.nonempty⟩
        · exact List.forall_mem_cons.mpr ⟨bounded, separated.bounded⟩
        · refine List.forall_mem_cons.mpr ⟨Nat.le_refl _, ?_⟩
          intro later member
          have least := atLeast later member
          omega
        · rw [covers_cons, covers, covers_cons, covers_cons, covers_cons]

theorem mergeRanges_separated (tidy : Tidy ranges) :
    Separated (mergeRanges ranges) ∧
      ∀ address, Covers (mergeRanges ranges) address ↔ Covers ranges address := by
  cases ranges with
  | nil => exact ⟨⟨.nil, nofun, nofun⟩, fun _ => Iff.rfl⟩
  | cons r rest =>
      obtain ⟨separated, _, covers⟩ := mergeFrom_separated tidy
      exact ⟨separated, covers⟩

theorem excludedBy_eq_true (tidy : Tidy ranges) (test : BitVec 64) :
    excludedBy test ranges = true ↔ Covers ranges test := by
  have list := tidy.rangeList
  induction ranges with
  | nil =>
      refine iff_of_false ?_ covers_nil
      exact Bool.false_ne_true
  | cons curr rest induction =>
      have isLimit := list.sortedList.head.limit_toNat
      have rest' : Tidy rest := ⟨(List.pairwise_cons.mp tidy.ordered).2,
        (List.forall_mem_cons.mp tidy.nonempty).2,
        (List.forall_mem_cons.mp tidy.bounded).2⟩
      unfold excludedBy
      by_cases before : test < curr.baseAddress
      · rw [if_pos before]
        exact iff_of_false Bool.false_ne_true
          (list.sortedList.not_covers before)
      · rw [if_neg before]
        have from_start : curr.start ≤ test.toNat := Nat.le_of_not_lt before
        by_cases inside : test < curr.limit
        · rw [if_pos inside]
          rw [BitVec.lt_def, isLimit] at inside
          exact iff_of_true rfl (covers_cons.mpr (.inl ⟨from_start, inside⟩))
        · rw [if_neg inside, covers_cons]
          rw [BitVec.lt_def, isLimit] at inside
          refine (induction rest' list.tail).trans ?_
          exact (or_iff_right fun contains => inside contains.2).symm

/-- What is to be instrumented: the addresses of the libs range and of an include
range, any address if there is none, outside the excluded and the JIT ranges. -/
def Instrumented (lists : RangeLists) (jit : List GumMemoryRange)
    (libs : GumMemoryRange) (address : BitVec 64) : Prop :=
  libs.Contains address ∧
    (lists.includeRanges = [] ∨ Covers lists.includeRanges address) ∧
    ¬ Covers lists.excludeRanges address ∧ ¬ Covers jit address

theorem includedOrAll_rangeList {includeRanges : List GumMemoryRange}
    (list : RangeList includeRanges) :
    RangeList (includedOrAll includeRanges) := by
  unfold includedOrAll
  split
  · rename_i none
    rw [List.length_eq_zero_iff.mp none, List.nil_append]
    exact ⟨List.pairwise_singleton _ _, List.pairwise_singleton _ _,
      List.forall_mem_singleton.mpr (by decide)⟩
  · exact list

theorem includedOrAll_covers (includeRanges : List GumMemoryRange)
    (notLast : address.toNat + 1 < 2 ^ 64) :
    Covers (includedOrAll includeRanges) address ↔
      includeRanges = [] ∨ Covers includeRanges address := by
  unfold includedOrAll
  split
  · rename_i none
    have isNil := List.length_eq_zero_iff.mp none
    refine iff_of_true ?_ (.inl isNil)
    refine ⟨_, List.mem_append_right _ List.mem_cons_self, Nat.zero_le _, ?_⟩
    change address.toNat < 0 + (2 ^ 64 - 1)
    omega
  · rename_i some
    exact (or_iff_right fun none => some (congrArg List.length none)).symm

/-- The computed ranges are separated, and contain the addresses of modules that
are not instrumented. -/
theorem rangesInit_excluded {modules jit : List GumMemoryRange}
    {libs : GumMemoryRange} {lists : RangeLists} (isModules : RangeList modules)
    (isIncludes : RangeList lists.includeRanges)
    (isExcludes : RangeList lists.excludeRanges) (isJit : RangeList jit)
    (isLibs : libs.NoOverflow) :
    (∀ address,
      rangeIsExcluded (rangesInit modules jit libs lists) address = true ↔
        Covers modules address ∧ ¬ Instrumented lists jit libs address) ∧
      ∃ ranges, (rangesInit modules jit libs lists).ranges = some ranges ∧
        Separated ranges := by
  have isLibs' : RangeList [libs] :=
    ⟨List.pairwise_singleton _ _, List.pairwise_singleton _ _,
      List.forall_mem_singleton.mpr isLibs⟩
  have isIncludes' := includedOrAll_rangeList isIncludes
  have step1 := (intersectRanges_tidy isModules isLibs').rangeList
  have step2 := (intersectRanges_tidy step1 isIncludes').rangeList
  have step3 := (subtractRanges_tidy step2 isExcludes).rangeList
  have step4 := (subtractRanges_tidy step3 isJit).rangeList
  have step5 := subtractRanges_tidy isModules step4
  obtain ⟨separated, covers⟩ := mergeRanges_separated step5
  refine ⟨fun address => ?_, _, rfl, separated⟩
  change excludedBy address (mergeRanges _) = true ↔ _
  refine (excludedBy_eq_true separated.tidy address).trans
    ((covers address).trans ?_)
  rw [subtractRanges_covers isModules step4, subtractRanges_covers step3 isJit,
    subtractRanges_covers step2 isExcludes,
    intersectRanges_covers step1 isIncludes',
    intersectRanges_covers isModules isLibs']
  refine and_congr_right fun inModule => not_congr ?_
  obtain ⟨range, member, contains⟩ := inModule
  have inside : range.stop < 2 ^ 64 := isModules.bounded range member
  have last := contains.2
  rw [includedOrAll_covers _ (by omega), covers_cons, or_iff_left covers_nil]
  have inModule : Covers modules address := ⟨range, member, contains⟩
  unfold Instrumented
  tauto

def twoModules : List GumMemoryRange := [⟨0x1000, 0x2000⟩, ⟨0x8000, 0x1000⟩]

theorem rangesInit_excluded_twoModules :
    let lists : RangeLists := ⟨[], [], [], [⟨0x1800, 0x400⟩],
      [⟨0x1900, 0x10⟩, ⟨0x1a00, 0x100⟩], none⟩
    (∀ address,
      rangeIsExcluded (rangesInit twoModules [⟨0x1850, 0x8⟩] ⟨0x1000, 0x2000⟩
          lists) address = true ↔
        Covers twoModules address ∧
          ¬ Instrumented lists [⟨0x1850, 0x8⟩] ⟨0x1000, 0x2000⟩ address) ∧
      ∃ ranges, (rangesInit twoModules [⟨0x1850, 0x8⟩] ⟨0x1000, 0x2000⟩
          lists).ranges = some ranges ∧ Separated ranges := by
  have pair : ∀ first second : GumMemoryRange, first.NoOverflow →
      second.NoOverflow → first.stop ≤ second.start →
      RangeList [first, second] := by
    intro first second bounded bounded' behind
    refine ⟨List.pairwise_pair.mpr ?_, List.pairwise_pair.mpr ?_,
      List.forall_mem_cons.mpr ⟨bounded, List.forall_mem_singleton.mpr bounded'⟩⟩
    · exact Nat.le_trans GumMemoryRange.start_le_stop behind
    · intro address both
      have before := both.1.2
      have after := both.2.1
      omega
  have single : ∀ range : GumMemoryRange, range.NoOverflow →
      RangeList [range] := fun range bounded =>
    ⟨List.pairwise_singleton _ _, List.pairwise_singleton _ _,
      List.forall_mem_singleton.mpr bounded⟩
  exact rangesInit_excluded (pair _ _ (by decide) (by decide) (by decide))
    (single _ (by decide)) (pair _ _ (by decide) (by decide) (by decide))
    (single _ (by decide)) (by decide)

example : (rangesInit twoModules [⟨0x1850, 0x8⟩] ⟨0x1000, 0x2000⟩
      ⟨[], [], [], [⟨0x1800, 0x100⟩], [], none⟩).ranges =
    some [⟨0x1000, 0x800⟩, ⟨0x1850, 8⟩, ⟨0x1900, 0x1700⟩, ⟨0x8000, 0x1000⟩] := by
  decide

end AFLPlusPlus
