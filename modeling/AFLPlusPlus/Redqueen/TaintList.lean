import AFLPlusPlus.Redqueen.Colorization

/-!
# The list of tainted ranges

The ranges that were replaced for good are reported from the first one of the
case to the last one.  A range right behind the one before is joined with it, so
that the list descends and no two of its elements touch.
-/

namespace AFLPlusPlus.Redqueen

/-- The range begins right behind the last taint. -/
def Adjacent (taint : List Tainted) (rng : Range) : Prop :=
  ∃ t, taint.head? = some t ∧ t.pos + t.len = rng.start

theorem adjacent_iff {taint : List Tainted} {rng : Range} :
    (taint.head?.any fun t => t.pos + t.len = rng.start) = true ↔
      Adjacent taint rng := by
  unfold Adjacent
  cases taint.head? with
  | none =>
      apply iff_of_false Bool.false_ne_true
      intro found
      obtain ⟨t, none, _⟩ := found
      cases none
  | some t => simp

/-- What is found from number `index` on is a range to be reported, and if it is
the first one, then no range to be reported begins before it. -/
def Found.Right (taint : List Tainted) (ranges : List Range) (index pos : Nat)
    (r : Option (Nat × Range)) : Found → Prop
  | .behind place rng =>
      (∃ i, place = index + i ∧ ranges[i]? = some rng) ∧ rng.ok = 1 ∧
        Adjacent taint rng
  | .first place rng =>
      (r = some (place, rng) ∧ ∀ other ∈ ranges, other.ok = 1 → pos ≤ other.start) ∨
      ((∃ i, place = index + i ∧ ranges[i]? = some rng) ∧ rng.ok = 1 ∧
        rng.start < pos ∧ ¬Adjacent taint rng ∧
        ∀ other ∈ ranges, other.ok = 1 → rng.start ≤ other.start)
  | .nothing => r = none ∧ ∀ other ∈ ranges, other.ok = 1 → pos ≤ other.start

theorem findRange_right (taint : List Tainted) (ranges : List Range)
    (index pos : Nat) (r : Option (Nat × Range)) :
    (findRange taint ranges index pos r).Right taint ranges index pos r := by
  induction ranges generalizing index pos r with
  | nil =>
      cases r with
      | none => exact ⟨rfl, fun _ member => absurd member List.not_mem_nil⟩
      | some found =>
          exact .inl ⟨rfl, fun _ member => absurd member List.not_mem_nil⟩
  | cons rng ranges induction =>
      have onward : ∀ {place : Nat} {found : Range},
          (∃ i, place = index + 1 + i ∧ ranges[i]? = some found) →
            ∃ i, place = index + i ∧ (rng :: ranges)[i]? = some found := by
        rintro place found ⟨i, position, isRange⟩
        exact ⟨i + 1, by omega, isRange⟩
      rw [findRange]
      split
      · rename_i earlier
        split
        · rename_i adjacent
          exact ⟨⟨0, rfl, rfl⟩, earlier.1, adjacent_iff.mp adjacent⟩
        · rename_i apart
          rw [adjacent_iff] at apart
          have rest := induction (index + 1) rng.start (some (index, rng))
          revert rest
          cases findRange taint ranges (index + 1) rng.start
              (some (index, rng)) with
          | behind place found =>
              exact fun rest => ⟨onward rest.1, rest.2⟩
          | nothing =>
              exact fun rest => absurd rest.1 (Option.some_ne_none _)
          | first place found =>
              intro rest
              right
              rcases rest with ⟨same, least⟩ | ⟨here, isOk, less, apart', least⟩
              · obtain ⟨rfl, rfl⟩ := Prod.mk.inj (Option.some.inj same)
                refine ⟨⟨0, rfl, rfl⟩, earlier.1, earlier.2, apart, ?_⟩
                intro other member isOk
                rcases List.mem_cons.mp member with rfl | member
                · exact Nat.le_refl _
                · exact least other member isOk
              · refine ⟨onward here, isOk, less.trans earlier.2, apart', ?_⟩
                intro other member otherOk
                rcases List.mem_cons.mp member with rfl | member
                · exact Nat.le_of_lt less
                · exact least other member otherOk
      · rename_i later
        have rest := induction (index + 1) pos r
        have here : rng.ok = 1 → pos ≤ rng.start := fun isOk =>
          Nat.le_of_not_lt fun less => later ⟨isOk, less⟩
        have all : (∀ other ∈ ranges, other.ok = 1 → pos ≤ other.start) →
            ∀ other ∈ rng :: ranges, other.ok = 1 → pos ≤ other.start :=
          fun least => List.forall_mem_cons.mpr ⟨here, least⟩
        revert rest
        cases findRange taint ranges (index + 1) pos r with
        | behind place found => exact fun rest => ⟨onward rest.1, rest.2⟩
        | nothing => exact fun rest => ⟨rest.1, all rest.2⟩
        | first place found =>
            rintro (⟨same, least⟩ | ⟨found, isOk, less, apart, least⟩)
            · exact .inl ⟨same, all least⟩
            · refine .inr ⟨onward found, isOk, less, apart, ?_⟩
              exact List.forall_mem_cons.mpr
                ⟨fun isOk => (Nat.le_of_lt less).trans (here isOk), least⟩

def InTaint (taint : List Tainted) (i : Nat) : Prop :=
  ∃ t ∈ taint, t.pos ≤ i ∧ i < t.pos + t.len

/-- The taint covers the ranges that are reported, in descending order and
without neighbours, and what is to be reported begins behind it. -/
structure Reporting (len : Nat) (ranges : List Range)
    (taint : List Tainted) : Prop where
  apart : ranges.Pairwise Range.Apart
  inside : ∀ rng ∈ ranges, rng.start ≤ rng.stop ∧ rng.stop < len
  descending : taint.Pairwise fun t lower => lower.pos + lower.len < t.pos
  within : ∀ t ∈ taint, 0 < t.len ∧ t.pos + t.len ≤ len
  reported : ∀ i, InTaint taint i ↔ ∃ rng ∈ ranges, rng.ok = 2 ∧ rng.Contains i
  waiting : ∀ t, taint.head? = some t → ∀ rng ∈ ranges, rng.ok = 1 →
    t.pos + t.len ≤ rng.start

variable {len : Nat} {ranges rest : List Range} {rng : Range}
  {taint : List Tainted}

theorem Reporting.perm {others : List Range}
    (reporting : Reporting len ranges taint) (perm : ranges.Perm others) :
    Reporting len others taint where
  apart := perm.pairwise reporting.apart fun apart => Or.symm apart
  inside rng member := reporting.inside rng (perm.mem_iff.mpr member)
  descending := reporting.descending
  within := reporting.within
  reported i := by
    rw [reporting.reported i]
    simp only [perm.mem_iff]
  waiting t first rng member := reporting.waiting t first rng (perm.mem_iff.mpr member)

theorem reported_cons (pending : rng.ok = 1) (i : Nat) :
    (∃ other ∈ { rng with ok := 2 } :: rest, other.ok = 2 ∧ other.Contains i) ↔
      rng.Contains i ∨ ∃ other ∈ rng :: rest, other.ok = 2 ∧ other.Contains i := by
  constructor
  · rintro ⟨other, member, isOk, contains⟩
    rcases List.mem_cons.mp member with rfl | member
    · exact .inl contains
    · exact .inr ⟨other, List.mem_cons_of_mem _ member, isOk, contains⟩
  · rintro (contains | ⟨other, member, isOk, contains⟩)
    · exact ⟨_, List.mem_cons_self, rfl, contains⟩
    · rcases List.mem_cons.mp member with rfl | member
      · rw [pending] at isOk
        cases isOk
      · exact ⟨other, List.mem_cons_of_mem _ member, isOk, contains⟩

section

variable (reporting : Reporting len (rng :: rest) taint)
include reporting

theorem Reporting.behind_of
    (least : ∀ other ∈ rest, other.ok = 1 → rng.start ≤ other.start) {other : Range}
    (member : other ∈ { rng with ok := 2 } :: rest) (pending : other.ok = 1) :
    rng.start + rng.size ≤ other.start := by
  rcases List.mem_cons.mp member with rfl | member
  · cases pending
  · have apart := (List.pairwise_cons.mp reporting.apart).1 other member
    have inside := reporting.inside rng List.mem_cons_self
    have otherInside := reporting.inside other (List.mem_cons_of_mem _ member)
    have before := least other member pending
    unfold Range.Apart at apart
    unfold Range.size
    omega

theorem Reporting.framed :
    ({ rng with ok := 2 } :: rest).Pairwise Range.Apart ∧
      ∀ other ∈ { rng with ok := 2 } :: rest,
        other.start ≤ other.stop ∧ other.stop < len := by
  obtain ⟨first, others⟩ := List.pairwise_cons.mp reporting.apart
  refine ⟨List.pairwise_cons.mpr ⟨first, others⟩, ?_⟩
  obtain ⟨here, there⟩ := List.forall_mem_cons.mp reporting.inside
  exact List.forall_mem_cons.mpr ⟨here, there⟩

theorem Reporting.behind (pending : rng.ok = 1) (adjacent : Adjacent taint rng) :
    Reporting len ({ rng with ok := 2 } :: rest)
      (taint.modifyHead fun t => { t with len := t.len + rng.size }) := by
  obtain ⟨t, first, touches⟩ := adjacent
  obtain ⟨lower, rfl⟩ := List.head?_eq_some_iff.mp first
  have inside := reporting.inside rng List.mem_cons_self
  obtain ⟨below, descending⟩ := List.pairwise_cons.mp reporting.descending
  obtain ⟨headWithin, lowerWithin⟩ := List.forall_mem_cons.mp reporting.within
  have size : rng.size = 1 + rng.stop - rng.start := rfl
  refine ⟨reporting.framed.1, reporting.framed.2,
    List.pairwise_cons.mpr ⟨below, descending⟩,
    List.forall_mem_cons.mpr ⟨by dsimp only; omega, lowerWithin⟩, ?_, ?_⟩
  · intro i
    rw [reported_cons pending, ← reporting.reported i]
    unfold InTaint Range.Contains
    simp only [List.modifyHead_cons, List.exists_mem_cons_iff]
    rw [← or_assoc]
    apply or_congr_left
    omega
  · intro t' isFirst other member isPending
    obtain rfl := Option.some.inj isFirst
    have least : ∀ other ∈ rest, other.ok = 1 → rng.start ≤ other.start := by
      intro other member isPending
      rw [← touches]
      exact reporting.waiting t first other (List.mem_cons_of_mem _ member)
        isPending
    have behind := reporting.behind_of least member isPending
    dsimp only
    omega

theorem Reporting.first (pending : rng.ok = 1) (apart : ¬Adjacent taint rng)
    (least : ∀ other ∈ rest, other.ok = 1 → rng.start ≤ other.start) :
    Reporting len ({ rng with ok := 2 } :: rest)
      (⟨rng.start, rng.size⟩ :: taint) := by
  have inside := reporting.inside rng List.mem_cons_self
  have size : rng.size = 1 + rng.stop - rng.start := rfl
  have ahead : ∀ lower ∈ taint, lower.pos + lower.len < rng.start := by
    intro lower member
    cases taint with
    | nil => cases member
    | cons t taint =>
        have behind := reporting.waiting t rfl rng List.mem_cons_self pending
        have last : t.pos + t.len < rng.start :=
          Nat.lt_of_le_of_ne behind fun touches => apart ⟨t, rfl, touches⟩
        rcases List.mem_cons.mp member with rfl | member
        · exact last
        · have below := (List.pairwise_cons.mp reporting.descending).1 lower member
          omega
  refine ⟨reporting.framed.1, reporting.framed.2,
    List.pairwise_cons.mpr ⟨ahead, reporting.descending⟩,
    List.forall_mem_cons.mpr ⟨by dsimp only; omega, reporting.within⟩, ?_, ?_⟩
  · intro i
    rw [reported_cons pending, ← reporting.reported i]
    unfold InTaint Range.Contains
    rw [List.exists_mem_cons_iff]
    apply or_congr_left
    dsimp only
    omega
  · intro t isFirst other member isPending
    obtain rfl := Option.some.inj isFirst
    exact reporting.behind_of least member isPending

end

/-- The position is in a range that was replaced, reported or not. -/
def Taken (ranges : List Range) (i : Nat) : Prop :=
  ∃ rng ∈ ranges, (rng.ok = 1 ∨ rng.ok = 2) ∧ rng.Contains i

def pending (ranges : List Range) : Nat := ranges.countP fun rng => rng.ok = 1

section

variable {place : Nat} (found : ranges[place]? = some rng) (isPending : rng.ok = 1)
include found isPending

theorem pending_reported :
    pending (ranges.set place { rng with ok := 2 }) + 1 = pending ranges := by
  have replaced := Counting.countP_replaced found { rng with ok := 2 }
    fun rng => decide (rng.ok = 1)
  rw [if_pos (decide_eq_true isPending)] at replaced
  exact replaced

theorem taken_reported (i : Nat) :
    Taken (ranges.set place { rng with ok := 2 }) i ↔ Taken ranges i := by
  obtain ⟨front, reported⟩ := perm_found found { rng with ok := 2 }
  unfold Taken
  simp only [reported.mem_iff, front.mem_iff, List.exists_mem_cons_iff,
    isPending, true_or, or_true, true_and]
  rfl

end

theorem taken_of_none (none : ∀ rng ∈ ranges, rng.ok ≠ 1) (i : Nat) :
    Taken ranges i ↔ ∃ rng ∈ ranges, rng.ok = 2 ∧ rng.Contains i := by
  constructor
  · rintro ⟨rng, member, isOk, contains⟩
    exact ⟨rng, member, isOk.resolve_left (none rng member), contains⟩
  · rintro ⟨rng, member, isOk, contains⟩
    exact ⟨rng, member, .inr isOk, contains⟩

/-- What is handed over. -/
structure Reports (len : Nat) (ranges : List Range) (taint : List Tainted) : Prop where
  descending : taint.Pairwise fun t lower => lower.pos + lower.len < t.pos
  within : ∀ t ∈ taint, 0 < t.len ∧ t.pos + t.len ≤ len
  covers : ∀ i, InTaint taint i ↔ Taken ranges i

theorem Reporting.done (reporting : Reporting len ranges taint)
    (none : ∀ rng ∈ ranges, rng.ok ≠ 1) : Reports len ranges taint :=
  ⟨reporting.descending, reporting.within, fun i =>
    (reporting.reported i).trans (taken_of_none none i).symm⟩

theorem collectTaint_reports (short : len < 2 ^ 32) {fuel positions : Nat}
    (reporting : Reporting len ranges taint) (enough : pending ranges ≤ fuel) :
    Reports len ranges (collectTaint fuel ranges taint positions).1 := by
  induction fuel generalizing ranges taint positions with
  | zero =>
      apply reporting.done
      intro rng member isPending
      have none := List.countP_eq_zero.mp (Nat.le_zero.mp enough) rng member
      exact none (decide_eq_true isPending)
  | succ fuel induction =>
      have goesOn : ∀ {place : Nat} {rng : Range} {next : List Tainted}
          {count : Nat}, ranges[place]? = some rng → rng.ok = 1 →
          Reporting len (ranges.set place { rng with ok := 2 }) next →
          Reports len ranges
            (collectTaint fuel (ranges.set place { rng with ok := 2 }) next
              count).1 := by
        intro place rng next count found isPending reporting
        have fewer := pending_reported found isPending
        have reports := @induction _ _ count reporting (by omega)
        refine ⟨reports.descending, reports.within, fun i => ?_⟩
        rw [reports.covers, taken_reported found isPending]
      have right := findRange_right taint ranges 0 (2 ^ 32 - 1) none
      unfold collectTaint
      revert right
      cases findRange taint ranges 0 (2 ^ 32 - 1) none with
      | behind place rng =>
          rintro ⟨⟨i, position, found⟩, isPending, adjacent⟩
          obtain rfl := position.trans (Nat.zero_add i)
          obtain ⟨front, reported⟩ := perm_found found { rng with ok := 2 }
          apply goesOn found isPending
          exact ((reporting.perm front).behind isPending adjacent).perm
            reported.symm
      | first place rng =>
          rintro (⟨same, _⟩ | ⟨⟨i, position, found⟩, isPending, _, apart, least⟩)
          · cases same
          · obtain rfl := position.trans (Nat.zero_add i)
            obtain ⟨front, reported⟩ := perm_found found { rng with ok := 2 }
            apply goesOn found isPending
            refine ((reporting.perm front).first isPending apart ?_).perm
              reported.symm
            intro other member
            exact least other (List.mem_of_mem_eraseIdx member)
      | nothing =>
          intro right
          apply reporting.done
          intro rng member isPending
          have far := right.2 rng member isPending
          have inside := reporting.inside rng member
          omega

end AFLPlusPlus.Redqueen
