import Mathlib.Tactic.Common

/-!
# Loops

The counting loop, the same loop with rounds that may fail, and the scan with
an early exit, each with the rule by which a property is carried through it.
-/

section CountingLoop

variable {State : Type}

/-- Run `body 0`, …, `body (count - 1)` in this order. -/
def forRange (body : Nat → State → State) : Nat → State → State
  | 0, state => state
  | count + 1, state => body count (forRange body count state)

/-- A property of the state and of the number of finished rounds which every
round extends holds when the loop ends. -/
theorem forRange_invariant (body : Nat → State → State)
    (invariant : Nat → State → Prop) (state : State)
    (start : invariant 0 state) (count : Nat)
    (round : ∀ index < count, ∀ current,
      invariant index current → invariant (index + 1) (body index current)) :
    invariant count (forRange body count state) := by
  induction count with
  | zero => exact start
  | succ count induction =>
      apply round count (Nat.lt_succ_self count)
      apply induction
      intro index inside
      exact round index (by omega)

end CountingLoop

section FailingLoop

variable {Failure State Result : Type}

/-- What may be said of a computation that can fail: a result has a property,
and a failure is one of the allowed ones. -/
def Yields (allowed : Failure → Prop) (post : State → Prop) :
    Except Failure State → Prop
  | .ok state => post state
  | .error failure => allowed failure

theorem Yields.bind {allowed : Failure → Prop} {middle : State → Prop}
    {post : Result → Prop} {computation : Except Failure State}
    {rest : State → Except Failure Result}
    (first : Yields allowed middle computation)
    (second : ∀ state, middle state → Yields allowed post (rest state)) :
    Yields allowed post (computation >>= rest) := by
  cases computation with
  | error failure => exact first
  | ok state => exact second state first

section

variable {allowed : Failure → Prop} {computation : Except Failure State}
    {post : State → Prop} (yields : Yields allowed post computation)
include yields

theorem Yields.mono {weaker : State → Prop}
    (implies : ∀ state, post state → weaker state) :
    Yields allowed weaker computation := by
  cases computation with
  | error failure => exact yields
  | ok state => exact implies state yields

theorem Yields.anyFailure : Yields (fun _ => True) post computation := by
  cases computation with
  | error failure => trivial
  | ok state => exact yields

/-- What is known of every result may be added. -/
theorem Yields.and_returns {more : State → Prop}
    (returns : ∀ state, computation = .ok state → more state) :
    Yields allowed (fun state => more state ∧ post state) computation := by
  cases computation with
  | error failure => exact yields
  | ok state => exact ⟨returns state rfl, yields⟩

end

theorem Yields.returns {post : State → Prop}
    {computation : Except Failure State}
    (yields : Yields (fun _ => False) post computation) :
    ∃ state, computation = .ok state ∧ post state := by
  cases computation with
  | error failure => exact yields.elim
  | ok state => exact ⟨state, rfl, yields⟩

theorem ok_bind (state : State) (rest : State → Except Failure Result) :
    (.ok state >>= rest) = rest state := rfl

theorem bind_returns {computation : Except Failure State}
    {rest : State → Except Failure Result} {result : Result}
    (returns : computation >>= rest = .ok result) :
    ∃ state, computation = .ok state ∧ rest state = .ok result := by
  cases computation with
  | error failure => cases returns
  | ok state => exact ⟨state, rfl, returns⟩

/-- The counting loop with rounds that may fail. -/
def forRangeM (body : Nat → State → Except Failure State) :
    Nat → State → Except Failure State
  | 0, state => .ok state
  | count + 1, state => forRangeM body count state >>= body count

/-- A property which every round extends, unless it fails in an allowed way,
holds when the loop ends. -/
theorem forRangeM_yields {allowed : Failure → Prop}
    (body : Nat → State → Except Failure State)
    (invariant : Nat → State → Prop) (state : State)
    (start : invariant 0 state) (count : Nat)
    (round : ∀ index < count, ∀ current, invariant index current →
      Yields allowed (invariant (index + 1)) (body index current)) :
    Yields allowed (invariant count) (forRangeM body count state) := by
  induction count with
  | zero => exact start
  | succ count induction =>
      exact (induction fun index inside => round index (by omega)).bind
        (round count (Nat.lt_succ_self count))

end FailingLoop

/-- A scan with an early exit, as long as `more` allows and at most `fuel`
rounds: 1 as soon as a block is a hit, 0 at the end, and nothing when the fuel
runs out first. -/
def scanBlocks (more hit : Nat → Bool) (stride : Nat) : Nat → Nat → Option Nat
  | 0, _ => none
  | fuel + 1, offset =>
      if more offset then
        if hit offset then some 1
        else scanBlocks more hit stride fuel (offset + stride)
      else some 0

/-- A scan whose bound is a whole number of strides ends there, with enough
fuel for its blocks, and reports whether some block is a hit. -/
theorem scanBlocks_eq (more hit : Nat → Bool) {stride blocks : Nat}
    (continues : ∀ block < blocks, more (stride * block) = true)
    (stops : more (stride * blocks) = false)
    (fuel start : Nat) (reached : start ≤ blocks)
    (enough : blocks - start < fuel) :
    scanBlocks more hit stride fuel (stride * start) =
      some (if ∃ block, block < blocks ∧ start ≤ block ∧
          hit (stride * block) = true then 1 else 0) := by
  induction fuel generalizing start with
  | zero => omega
  | succ fuel induction =>
      by_cases finished : start = blocks
      · subst start
        have none : ¬∃ block, block < blocks ∧ blocks ≤ block ∧
            hit (stride * block) = true := by
          rintro ⟨block, below, above, _⟩
          omega
        simp [scanBlocks, stops, none]
      · have inside : start < blocks := by omega
        rw [scanBlocks, if_pos (continues start inside)]
        by_cases found : hit (stride * start) = true
        · have some : ∃ block, block < blocks ∧ start ≤ block ∧
              hit (stride * block) = true :=
            ⟨start, inside, Nat.le_refl _, found⟩
          simp [found, some]
        · rw [if_neg found, ← Nat.mul_succ,
            induction (start + 1) (by omega) (by omega)]
          have same : (∃ block, block < blocks ∧ start + 1 ≤ block ∧
              hit (stride * block) = true) ↔
              ∃ block, block < blocks ∧ start ≤ block ∧
                hit (stride * block) = true := by
            constructor
            · rintro ⟨block, below, above, isHit⟩
              exact ⟨block, below, by omega, isHit⟩
            · rintro ⟨block, below, above, isHit⟩
              have other : block ≠ start := by
                rintro rfl
                exact found isHit
              exact ⟨block, below, by omega, isHit⟩
          simp only [same]
