import AFLPlusPlus.Redqueen.TaintList

/-!
# The search for ranges that can be replaced

Every test of the search replaces the bytes of the largest range that is left.
It ends with the range replaced for good, split into halves, or dropped, so that
the ranges that are left are a partition of the positions that are not explored
and the search is over before its bound.
-/

namespace AFLPlusPlus.Redqueen

/-- A range that was tested, and whether it was replaced for good. -/
structure ColorTest where
  rng : Range
  replaced : Bool

def ColorRun.Same (run : ColorRun) (execCksum : BitVec 64) : Prop :=
  run.cksum = execCksum ∧ run.tooSlow = false

/-- The tests, the ranges and the buffer that the loop over the ranges may have
come to. -/
inductive ColorSearch (environment : ColorEnvironment) (execCksum : BitVec 64)
    (orig changed : List (BitVec 8)) :
    List ColorTest → List Range → List (BitVec 8) → Prop where
  | start :
      ColorSearch environment execCksum orig changed []
        [⟨0, orig.length - 1, 0⟩] orig
  | replace {tests : List ColorTest} {ranges : List Range}
      {buf : List (BitVec 8)} {index : Nat} {rng : Range}
      (search : ColorSearch environment execCksum orig changed tests ranges buf)
      (pops : popBiggestRange ranges = some (index, rng))
      (goesOn : (environment.run (tests.length + 1)
        (rng.copy buf changed)).aborts = false)
      (same : (environment.run (tests.length + 1)
        (rng.copy buf changed)).Same execCksum) :
      ColorSearch environment execCksum orig changed (tests ++ [⟨rng, true⟩])
        (ranges.set index { rng with ok := 1 }) (rng.copy buf changed)
  | discard {tests : List ColorTest} {ranges : List Range}
      {buf : List (BitVec 8)} {index : Nat} {rng : Range}
      (search : ColorSearch environment execCksum orig changed tests ranges buf)
      (pops : popBiggestRange ranges = some (index, rng))
      (goesOn : (environment.run (tests.length + 1)
        (rng.copy buf changed)).aborts = false)
      (other : ¬(environment.run (tests.length + 1)
        (rng.copy buf changed)).Same execCksum) :
      ColorSearch environment execCksum orig changed (tests ++ [⟨rng, false⟩])
        (rng.halves ++ ranges.eraseIdx index)
        (rng.copy (rng.copy buf changed) orig)

/-- No test has replaced the position for good or failed for it alone. -/
def Unexplored (tests : List ColorTest) (i : Nat) : Prop :=
  ∀ test ∈ tests, test.rng.Contains i → test.replaced = false ∧ 1 < test.rng.size

/-- The ranges are apart from each other, and those that are not `ok` are a
partition of the positions that are not explored. -/
structure Partition (len : Nat) (tests : List ColorTest)
    (ranges : List Range) : Prop where
  inside : ∀ rng ∈ ranges, rng.start ≤ rng.stop ∧ rng.stop < len
  apart : ranges.Pairwise Range.Apart
  known : ∀ rng ∈ ranges, rng.ok = 0 ∨ rng.ok = 1
  unexplored : ∀ i < len, Unexplored tests i ↔
    ∃ rng ∈ ranges, rng.ok = 0 ∧ rng.Contains i

variable {len : Nat} {tests : List ColorTest} {ranges rest : List Range}
  {rng : Range}

theorem Partition.start (positive : 0 < len) : Partition len [] [⟨0, len - 1, 0⟩] where
  inside other member := by
    rw [List.mem_singleton.mp member]
    dsimp only
    omega
  apart := List.pairwise_singleton _ _
  known other member := by
    rw [List.mem_singleton.mp member]
    exact .inl rfl
  unexplored i inside := by
    constructor
    · intro _
      refine ⟨_, List.mem_singleton_self _, rfl, Nat.zero_le i, ?_⟩
      dsimp only
      omega
    · intro _ test member
      cases member

theorem Partition.perm {others : List Range}
    (partition : Partition len tests ranges) (perm : ranges.Perm others) :
    Partition len tests others where
  inside rng member := partition.inside rng (perm.mem_iff.mpr member)
  apart := perm.pairwise partition.apart fun apart => Or.symm apart
  known rng member := partition.known rng (perm.mem_iff.mpr member)
  unexplored i inside := by
    rw [partition.unexplored i inside]
    simp only [perm.mem_iff]

theorem unexplored_append (test : ColorTest) (i : Nat) :
    Unexplored (tests ++ [test]) i ↔
      Unexplored tests i ∧
        (test.rng.Contains i → test.replaced = false ∧ 1 < test.rng.size) := by
  unfold Unexplored
  rw [List.forall_mem_append, List.forall_mem_singleton]

theorem Partition.alone (partition : Partition len tests (rng :: rest))
    {i : Nat} (contains : rng.Contains i) {other : Range}
    (member : other ∈ rest) : ¬other.Contains i := by
  have apart := (List.pairwise_cons.mp partition.apart).1 other member
  unfold Range.Apart at apart
  unfold Range.Contains at contains ⊢
  omega

theorem Partition.replace (partition : Partition len tests (rng :: rest)) :
    Partition len (tests ++ [⟨rng, true⟩]) ({ rng with ok := 1 } :: rest) := by
  obtain ⟨first, others⟩ := List.pairwise_cons.mp partition.apart
  obtain ⟨here, there⟩ := List.forall_mem_cons.mp partition.inside
  refine ⟨List.forall_mem_cons.mpr ⟨here, there⟩,
    List.pairwise_cons.mpr ⟨first, others⟩,
    List.forall_mem_cons.mpr ⟨.inr rfl,
      (List.forall_mem_cons.mp partition.known).2⟩, ?_⟩
  intro i inside
  rw [unexplored_append, partition.unexplored i inside,
    List.exists_mem_cons_iff, List.exists_mem_cons_iff]
  constructor
  · rintro ⟨⟨_, contains⟩ | found, outside⟩
    · cases (outside contains).1
    · exact .inr found
  · rintro (⟨replaced, _⟩ | ⟨other, member, isFresh, contains⟩)
    · cases replaced
    · refine ⟨.inr ⟨other, member, isFresh, contains⟩, fun here => ?_⟩
      exact absurd contains (partition.alone here member)

theorem Range.halves_cover (rng : Range) (several : 1 < rng.size) (i : Nat) :
    (∃ half ∈ rng.halves, half.ok = 0 ∧ half.Contains i) ↔ rng.Contains i := by
  unfold Range.halves
  rw [if_pos several, List.exists_mem_cons_iff, List.exists_mem_cons_iff]
  unfold Range.Contains
  unfold Range.size at several ⊢
  dsimp only
  simp only [List.not_mem_nil, false_and, exists_false, or_false, true_and]
  omega

theorem Partition.discard (partition : Partition len tests (rng :: rest))
    (fresh : rng.ok = 0) :
    Partition len (tests ++ [⟨rng, false⟩]) (rng.halves ++ rest) := by
  obtain ⟨first, others⟩ := List.pairwise_cons.mp partition.apart
  obtain ⟨here, there⟩ := List.forall_mem_cons.mp partition.inside
  obtain ⟨halvesApart, halves⟩ := rng.halves_spec here.1
  refine ⟨List.forall_mem_append.mpr ⟨?_, there⟩,
    List.pairwise_append.mpr ⟨halvesApart, others, ?_⟩,
    List.forall_mem_append.mpr ⟨fun half member =>
      .inl (halves half member).1,
      (List.forall_mem_cons.mp partition.known).2⟩, ?_⟩
  · intro half member
    have bounds := halves half member
    omega
  · intro half member other member'
    have bounds := halves half member
    have apart := first other member'
    unfold Range.Apart at apart ⊢
    omega
  · intro i inside
    have parts : (∃ other ∈ rng.halves ++ rest, other.ok = 0 ∧ other.Contains i) ↔
        (∃ half ∈ rng.halves, half.ok = 0 ∧ half.Contains i) ∨
          ∃ other ∈ rest, other.ok = 0 ∧ other.Contains i := by
      simp only [List.mem_append, or_and_right, exists_or]
    rw [unexplored_append, partition.unexplored i inside,
      List.exists_mem_cons_iff, parts]
    by_cases several : 1 < rng.size
    · rw [rng.halves_cover several]
      constructor
      · rintro ⟨⟨_, contains⟩ | found, _⟩
        · exact .inl contains
        · exact .inr found
      · rintro (contains | found)
        · exact ⟨.inl ⟨fresh, contains⟩, fun _ => ⟨rfl, several⟩⟩
        · exact ⟨.inr found, fun _ => ⟨rfl, several⟩⟩
    · have none : rng.halves = [] := if_neg several
      rw [none]
      simp only [List.not_mem_nil, false_and, exists_false, false_or]
      constructor
      · rintro ⟨⟨_, contains⟩ | found, single⟩
        · exact absurd (single contains).2 several
        · exact found
      · rintro ⟨other, member, isFresh, contains⟩
        refine ⟨.inr ⟨other, member, isFresh, contains⟩, fun here => ?_⟩
        exact absurd contains (partition.alone here member)

/-- The number of tests that a range still takes at most, and that of all
ranges. -/
def testsLeft : List Range → Nat
  | [] => 0
  | rng :: rest =>
      (if rng.ok = 0 then 2 * rng.size - 1 else 0) + testsLeft rest

theorem testsLeft_nil : testsLeft [] = 0 := rfl

theorem testsLeft_cons (rng : Range) (rest : List Range) :
    testsLeft (rng :: rest) =
      (if rng.ok = 0 then 2 * rng.size - 1 else 0) + testsLeft rest := rfl

theorem testsLeft_perm {others : List Range} (perm : ranges.Perm others) :
    testsLeft ranges = testsLeft others := by
  induction perm with
  | nil => rfl
  | cons rng _ induction => rw [testsLeft_cons, testsLeft_cons, induction]
  | swap rng other rest =>
      simp only [testsLeft_cons]
      omega
  | trans _ _ first second => exact first.trans second

theorem testsLeft_replace (fresh : rng.ok = 0)
    (inside : rng.start ≤ rng.stop) :
    testsLeft ({ rng with ok := 1 } :: rest) < testsLeft (rng :: rest) := by
  rw [testsLeft_cons, testsLeft_cons, if_pos fresh, if_neg Nat.one_ne_zero]
  unfold Range.size
  omega

theorem testsLeft_discard (fresh : rng.ok = 0)
    (inside : rng.start ≤ rng.stop) :
    testsLeft (rng.halves ++ rest) < testsLeft (rng :: rest) := by
  rw [testsLeft_cons, if_pos fresh]
  unfold Range.halves
  split
  · rename_i several
    rw [List.cons_append, List.singleton_append, testsLeft_cons, testsLeft_cons]
    unfold Range.size at several ⊢
    dsimp only
    rw [if_pos rfl, if_pos rfl]
    omega
  · rw [List.nil_append]
    unfold Range.size
    omega

variable {environment : ColorEnvironment} {execCksum : BitVec 64}
  {orig changed buf : List (BitVec 8)}

/-- What holds after every test. -/
structure Searched (orig changed : List (BitVec 8)) (tests : List ColorTest)
    (ranges : List Range) (buf : List (BitVec 8)) : Prop where
  colored : Colored orig changed ranges buf
  partition : Partition orig.length tests ranges
  bounded : tests.length + testsLeft ranges < 2 * orig.length

theorem ColorSearch.searched (positive : 0 < orig.length)
    (sameLength : changed.length = orig.length)
    (search : ColorSearch environment execCksum orig changed tests ranges buf) :
    Searched orig changed tests ranges buf := by
  induction search with
  | start =>
      refine ⟨Colored.start positive, Partition.start positive, ?_⟩
      rw [testsLeft_cons, testsLeft_nil, if_pos rfl, List.length_nil]
      unfold Range.size
      dsimp only
      omega
  | @replace tests ranges buf index rng _ pops _ _ induction =>
      obtain ⟨found, fresh⟩ := popBiggestRange_some pops
      obtain ⟨front, replaced⟩ := perm_found found { rng with ok := 1 }
      have partition := induction.partition.perm front
      refine ⟨((induction.colored.perm front).accept sameLength).perm
        replaced.symm, partition.replace.perm replaced.symm, ?_⟩
      have fewer := @testsLeft_replace (ranges.eraseIdx index) rng fresh
        (partition.inside rng List.mem_cons_self).1
      rw [← testsLeft_perm front, ← testsLeft_perm replaced] at fewer
      have bounded := induction.bounded
      rw [List.length_append, List.length_singleton]
      omega
  | @discard tests ranges buf index rng _ pops _ _ induction =>
      obtain ⟨found, fresh⟩ := popBiggestRange_some pops
      obtain ⟨front, _⟩ := perm_found found rng
      have partition := induction.partition.perm front
      refine ⟨(induction.colored.perm front).reject fresh sameLength,
        partition.discard fresh, ?_⟩
      have fewer := @testsLeft_discard (ranges.eraseIdx index) rng fresh
        (partition.inside rng List.mem_cons_self).1
      rw [← testsLeft_perm front] at fewer
      have bounded := induction.bounded
      rw [List.length_append, List.length_singleton]
      omega

theorem Colored.restored (colored : Colored orig changed (rng :: rest) buf)
    (fresh : rng.ok = 0) (sameLength : changed.length = orig.length) :
    rng.copy (rng.copy buf changed) orig = buf := by
  apply List.ext_getElem?
  intro i
  rw [colored.getElem?_restored sameLength]
  split
  · rename_i contains
    symm
    apply colored.kept
    rintro ⟨other, member, isOk, contains'⟩
    rcases List.mem_cons.mp member with rfl | member
    · rw [fresh] at isOk
      cases isOk
    · have apart := (List.pairwise_cons.mp colored.apart).1 other member
      unfold Range.Apart at apart
      unfold Range.Contains at contains contains'
      omega
  · rfl

/-- If the checksum depends on nothing but the case, then that of the buffer is
the one of the original after every test. -/
theorem ColorSearch.cksum {hash : List (BitVec 8) → BitVec 64}
    (deterministic : ∀ n bytes, (environment.run n bytes).cksum = hash bytes)
    (positive : 0 < orig.length) (sameLength : changed.length = orig.length)
    (search : ColorSearch environment (hash orig) orig changed tests ranges
      buf) : hash buf = hash orig := by
  induction search with
  | start => rfl
  | replace _ _ _ same _ => exact (deterministic _ _).symm.trans same.1
  | @discard _ _ _ _ rng search pops _ _ induction =>
      obtain ⟨found, fresh⟩ := popBiggestRange_some pops
      obtain ⟨front, _⟩ := perm_found found rng
      have colored := (search.searched positive sameLength).colored
      rw [(colored.perm front).restored fresh sameLength]
      exact induction

/-- The loop makes the tests of a search, until no range is left or its bound is
reached. -/
theorem ColorSearch.rounds {remaining : Nat}
    {out : List Range × List (BitVec 8)}
    (search : ColorSearch environment execCksum orig changed tests ranges buf)
    (returns : colorRounds environment execCksum orig changed remaining
      (tests.length + 1) ranges buf = .ok out) :
    ∃ all, ColorSearch environment execCksum orig changed all out.1 out.2 ∧
      all.length ≤ tests.length + remaining ∧
      (popBiggestRange out.1 = none ∨ all.length = tests.length + remaining) := by
  induction remaining generalizing tests ranges buf with
  | zero =>
      obtain rfl := Except.ok.inj returns
      exact ⟨tests, search, Nat.le_refl _, .inr rfl⟩
  | succ remaining induction =>
      rw [colorRounds] at returns
      split at returns
      · rename_i pops
        obtain rfl := Except.ok.inj returns
        exact ⟨tests, search, Nat.le_add_right _ _, .inl pops⟩
      · rename_i index rng pops
        have oneMore : ∀ test : ColorTest,
            (tests ++ [test]).length = tests.length + 1 :=
          fun test => List.length_append
        dsimp only at returns
        split at returns
        · cases returns
        · rename_i goesOn
          have goesOn := Bool.eq_false_of_not_eq_true goesOn
          split at returns
          · rename_i differs
            have next := search.discard pops goesOn fun same =>
              differs.elim (fun cksum => cksum same.1)
                fun slow => Bool.false_ne_true (same.2.symm.trans slow)
            obtain ⟨all, found, most, ends⟩ :=
              @induction (tests ++ [⟨rng, false⟩]) _ _ next
                (by rw [oneMore]; exact returns)
            rw [oneMore] at most ends
            exact ⟨all, found, by omega, ends.imp_right (by omega)⟩
          · rename_i differs
            obtain ⟨same, fast⟩ := not_or.mp differs
            have next := search.replace pops goesOn
              ⟨not_not.mp same, Bool.eq_false_of_not_eq_true fast⟩
            obtain ⟨all, found, most, ends⟩ :=
              @induction (tests ++ [⟨rng, true⟩]) _ _ next
                (by rw [oneMore]; exact returns)
            rw [oneMore] at most ends
            exact ⟨all, found, by omega, ends.imp_right (by omega)⟩

end AFLPlusPlus.Redqueen
