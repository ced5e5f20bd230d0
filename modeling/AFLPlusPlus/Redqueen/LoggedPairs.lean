import AFLPlusPlus.Redqueen.CmpFuzz

/-!
# The pairs that are skipped

`cmp_fuzz` is meant to skip a pair of values that the location has logged
before.  The test compares the second value of a pair with itself.
-/

namespace AFLPlusPlus.Redqueen

open EarlyExit

section Occurrences

variable {same alike : Nat → Nat → Prop}

theorem earlier_iff_earlier_iff (equal : Equivalence same)
    (similar : Equivalence alike) (finer : ∀ i j, same i j → alike i j)
    (n : Nat) :
    (∀ i < n, (∃ j < i, alike j i) ↔ ∃ j < i, same j i) ↔
      ∀ i < n, ∀ j < n, alike j i → same j i := by
  constructor
  · intro agree
    have below : ∀ i < n, ∀ j ≤ i, alike j i → same j i := by
      intro i
      induction i using Nat.strong_induction_on with
      | h i induction =>
          intro inside j notLater alikes
          obtain rfl | before := Nat.eq_or_lt_of_le notLater
          · exact equal.refl j
          obtain ⟨k, earlier, sames⟩ := (agree i inside).mp ⟨j, before, alikes⟩
          have between : alike j k :=
            similar.trans alikes (similar.symm (finer k i sames))
          obtain first | later := Nat.le_total j k
          · exact equal.trans
              (induction k earlier (by omega) j first between) sames
          · exact equal.trans (equal.symm
              (induction j before (by omega) k later (similar.symm between)))
              sames
    intro i insideI j insideJ alikes
    obtain first | later := Nat.le_total j i
    · exact below i insideI j first alikes
    · exact equal.symm (below j insideJ i later (similar.symm alikes))
  · intro agree i inside
    constructor
    · intro ⟨j, before, alikes⟩
      exact ⟨j, before, agree i inside j (by omega) alikes⟩
    · intro ⟨j, before, sames⟩
      exact ⟨j, before, finer j i sames⟩

end Occurrences

namespace CmpLocation

variable (h : CmpLocation)

def loggeds : Nat := min h.hits cmpMapH

def Repeats (i : Nat) : Prop :=
  ∃ j < i, (h.log j).v0 = (h.log i).v0 ∧ (h.log i).v1 = (h.log i).v1

instance (i : Nat) : Decidable (h.Repeats i) :=
  inferInstanceAs (Decidable (∃ _ < _, _))

def tried : List Nat := (List.range h.loggeds).filter fun i => ¬ h.Repeats i

def Skips (i : Nat) : Prop := i < h.loggeds ∧ i ∉ h.tried

/-- Two pairs are the same for a comparison of this width. -/
def SamePair (j i : Nat) : Prop :=
  (h.log j).v0 = (h.log i).v0 ∧ (h.log j).v1 = (h.log i).v1 ∧
    (8 < shapeBytes h.shape →
      (h.log j).v0_128 = (h.log i).v0_128 ∧ (h.log j).v1_128 = (h.log i).v1_128)

variable {h}

theorem skips_iff {i : Nat} (inside : i < h.loggeds) :
    h.Skips i ↔ ∃ j < i, (h.log j).v0 = (h.log i).v0 := by
  simp [Skips, tried, Repeats, inside]

theorem samePair_equivalence : Equivalence h.SamePair where
  refl _ := ⟨rfl, rfl, fun _ => ⟨rfl, rfl⟩⟩
  symm same := ⟨same.1.symm, same.2.1.symm,
    fun wide => ⟨(same.2.2 wide).1.symm, (same.2.2 wide).2.symm⟩⟩
  trans first second := ⟨first.1.trans second.1, first.2.1.trans second.2.1,
    fun wide => ⟨(first.2.2 wide).1.trans (second.2.2 wide).1,
      (first.2.2 wide).2.trans (second.2.2 wide).2⟩⟩

end CmpLocation

namespace ItsEnvironment

variable (afl : ItsEnvironment)

/-- The tries of `cmp_fuzz` for a pair. -/
def tryPair (h : CmpLocation) (taint : List Tainted) (i : Nat) : Its Unit :=
  afl.eachPosition taint (afl.tryOperands h (h.log i) (h.origLog i))

theorem cmpFuzz_eq_forM (h : CmpLocation) (taint : List Tainted) :
    afl.cmpFuzz h taint = h.tried.forM (afl.tryPair h taint) := by
  have program := forFrom_onlyIf
    (fun i => ∀ j < i, ¬((h.log j).v0 = (h.log i).v0 ∧
      (h.log i).v1 = (h.log i).v1)) (afl.tryPair h taint) 0 h.loggeds
  have tests : h.tried = (List.range' 0 h.loggeds).filter fun i =>
      ∀ j < i, ¬((h.log j).v0 = (h.log i).v0 ∧ (h.log i).v1 = (h.log i).v1) := by
    rw [CmpLocation.tried, List.range_eq_range']
    simp [CmpLocation.Repeats]
  rw [tests]
  exact program

/-- `cmp_fuzz` tries the pairs it does not skip, and those that it skips are
those logged before if the first value of a pair determines the pair. -/
theorem cmpFuzz_skips_repeated_iff (h : CmpLocation) :
    (∀ taint, afl.cmpFuzz h taint = h.tried.forM (afl.tryPair h taint)) ∧
    ((∀ i < h.loggeds, h.Skips i ↔ ∃ j < i, h.SamePair j i) ↔
      ∀ i < h.loggeds, ∀ j < h.loggeds,
        (h.log j).v0 = (h.log i).v0 → h.SamePair j i) := by
  refine ⟨afl.cmpFuzz_eq_forM h, ?_⟩
  have similar : Equivalence fun j i => (h.log j).v0 = (h.log i).v0 :=
    ⟨fun _ => rfl, Eq.symm, Eq.trans⟩
  rw [← earlier_iff_earlier_iff h.samePair_equivalence similar
    (fun _ _ same => same.1)]
  exact forall₂_congr fun i inside => by
    rw [CmpLocation.skips_iff inside]

end ItsEnvironment

/-- Two comparisons of an integer with 2 and with 3. -/
def twoConstants : CmpLocation where
  hits := 2
  shape := 3
  type := 1
  attr := 1
  log i := ⟨1, if i = 0 then 2 else 3, 0, 0⟩
  origLog _ := ⟨4, 2, 0, 0⟩
  fnLog _ := ⟨fun _ => 0, fun _ => 0⟩
  origFnLog _ := ⟨fun _ => 0, fun _ => 0⟩
  faileds := 0
  total := 0

/-- The comparison with 3 is skipped, though nothing was compared with it. -/
theorem cmpFuzz_skips_new_pair :
    1 < twoConstants.loggeds ∧ twoConstants.Skips 1 ∧
      ¬ ∃ j < 1, twoConstants.SamePair j 1 := by
  have inside : 1 < twoConstants.loggeds := by decide
  refine ⟨inside, ?_, ?_⟩
  · exact (CmpLocation.skips_iff inside).mpr ⟨0, by decide, rfl⟩
  · simp [CmpLocation.SamePair, twoConstants]

end AFLPlusPlus.Redqueen
