import Mathlib.Data.List.Induction

/-!
# Runs with output

A machine reads items one after the other; each step changes its state and writes
some output.  Whatever is in the output of a run was written by the step for one
item, behind the output for the items before it.
-/

namespace Transducer

variable {State Item Output : Type}
  (step : State → Item → State × List Output)

def run : State → List Item → State × List Output
  | state, [] => (state, [])
  | state, item :: items =>
      let first := step state item
      let later := run first.1 items
      (later.1, first.2 ++ later.2)

theorem run_append (state : State) (items more : List Item) :
    run step state (items ++ more) =
      ((run step (run step state items).1 more).1,
        (run step state items).2 ++ (run step (run step state items).1 more).2) := by
  induction items generalizing state with
  | nil => rfl
  | cons item items induction =>
      simp only [List.cons_append, run, induction, List.append_assoc]

theorem run_middle (state : State) (earlier later : List Item) (item : Item) :
    let before := run step state earlier
    let here := step before.1 item
    run step state (earlier ++ item :: later) =
      ((run step here.1 later).1, before.2 ++ (here.2 ++ (run step here.1 later).2)) :=
  run_append step state earlier (item :: later)

variable {step}

/-- The step that wrote one item of the output. -/
theorem exists_step_of_output {state : State} {items : List Item}
    {before after : List Output} {output : Output}
    (split : (run step state items).2 = before ++ output :: after) :
    ∃ earlier item later first last, items = earlier ++ item :: later ∧
      (step (run step state earlier).1 item).2 = first ++ output :: last ∧
      before = (run step state earlier).2 ++ first ∧
      after = last ++ (run step (step (run step state earlier).1 item).1 later).2 := by
  induction items generalizing state before with
  | nil => exact absurd split (by simp [run])
  | cons item items induction =>
      simp only [run] at split
      rcases List.append_eq_append_iff.mp split with
        ⟨gap, isBefore, rest⟩ | ⟨gap, isStep, rest⟩
      · obtain ⟨earlier, other, later, first, last, isItems, written, isFirst,
          isAfter⟩ := induction rest
        refine ⟨item :: earlier, other, later, first, last, ?_, written, ?_, isAfter⟩
        · rw [isItems, List.cons_append]
        · rw [isBefore, isFirst, run, List.append_assoc]
      · cases gap with
        | nil =>
            obtain ⟨earlier, other, later, first, last, isItems, written,
              isFirst, isAfter⟩ := @induction (step state item).1 [] rest.symm
            refine ⟨item :: earlier, other, later, first, last, ?_, written, ?_,
              isAfter⟩
            · rw [isItems, List.cons_append]
            · rw [run, List.append_assoc, ← isFirst]
              simpa using isStep.symm
        | cons same gap =>
            obtain ⟨rfl, isAfter⟩ := List.cons.inj rest
            exact ⟨[], item, items, before, gap, rfl, isStep, rfl, isAfter⟩

theorem run_invariant {holds : List Item → State → Prop} {state : State}
    (start : holds [] state)
    (keeps : ∀ earlier item state, holds earlier state →
      holds (earlier ++ [item]) (step state item).1) (items : List Item) :
    holds items (run step state items).1 := by
  induction items using List.reverseRecOn with
  | nil => exact start
  | append_singleton items item induction =>
      rw [run_append]
      exact keeps items item _ induction

/-- Output that each step writes according to its item alone. -/
theorem flatMap_run {Kept : Type} (keep : Output → List Kept)
    (written : Item → List Kept) (items : List Item)
    (each : ∀ item ∈ items, ∀ state,
      (step state item).2.flatMap keep = written item) (state : State) :
    (run step state items).2.flatMap keep = items.flatMap written := by
  induction items generalizing state with
  | nil => rfl
  | cons item items induction =>
      simp only [run, List.flatMap_append, List.flatMap_cons]
      rw [each item List.mem_cons_self,
        induction fun other member =>
          each other (List.mem_cons_of_mem _ member)]

end Transducer
