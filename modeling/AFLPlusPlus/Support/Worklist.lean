import Mathlib.Logic.Function.Iterate

/-!
# Worklists

A loop takes the first item of a list and puts the items it leads to in its
place.  It comes to an end, and every item it takes is good, just if an item and
all that it leads to are good and form a tree of finite depth.
-/

namespace Worklist

variable {Item : Type} (successors : Item → List Item)

def next : List Item → List Item
  | [] => []
  | item :: rest => successors item ++ rest

/-- An item is good, and so is all that it leads to, in finitely many steps. -/
inductive Hereditary (Good : Item → Prop) : Item → Prop
  | intro {item : Item} (good : Good item)
      (later : ∀ successor ∈ successors item, Hereditary Good successor) :
      Hereditary Good item

/-- The loop has done with `work` after so many rounds, has left the rest alone,
and has taken good items only. -/
def Done (Good : Item → Prop) (work : List Item) : Prop :=
  ∃ rounds, ∀ rest, (next successors)^[rounds] (work ++ rest) = rest ∧
    ∀ round < rounds, ∀ item others,
      (next successors)^[round] (work ++ rest) = item :: others → Good item

variable {successors} {Good : Item → Prop}

theorem Done.nil : Done successors Good [] :=
  ⟨0, fun _ => ⟨rfl, fun _ less => absurd less (Nat.not_lt_zero _)⟩⟩

theorem Done.append {first second : List Item}
    (one : Done successors Good first) (two : Done successors Good second) :
    Done successors Good (first ++ second) := by
  obtain ⟨early, one⟩ := one
  obtain ⟨late, two⟩ := two
  refine ⟨late + early, fun rest => ?_⟩
  obtain ⟨ends, good⟩ := one (second ++ rest)
  obtain ⟨ends', good'⟩ := two rest
  rw [List.append_assoc]
  constructor
  · rw [Function.iterate_add_apply, ends, ends']
  · intro round less item others taken
    by_cases soon : round < early
    · exact good round soon item others taken
    · have split : round = (round - early) + early := by omega
      rw [split, Function.iterate_add_apply, ends] at taken
      exact good' _ (by omega) item others taken

theorem Done.cons {item : Item} (good : Good item)
    (later : Done successors Good (successors item)) :
    Done successors Good [item] := by
  obtain ⟨rounds, later⟩ := later
  refine ⟨rounds + 1, fun rest => ?_⟩
  obtain ⟨ends, goods⟩ := later rest
  constructor
  · exact ends
  · intro round less item' others taken
    cases round with
    | zero =>
        obtain ⟨rfl, _⟩ := List.cons.inj taken
        exact good
    | succ round =>
        exact goods round (Nat.lt_of_succ_lt_succ less) item' others taken

variable {work : List Item}

theorem Done.ofForall (each : ∀ item ∈ work, Done successors Good [item]) :
    Done successors Good work := by
  induction work with
  | nil => exact .nil
  | cons item rest induction =>
      exact Done.append (each item List.mem_cons_self)
        (induction fun other member =>
          each other (List.mem_cons_of_mem item member))

theorem Hereditary.done {item : Item}
    (hereditary : Hereditary successors Good item) :
    Done successors Good [item] := by
  induction hereditary with
  | intro good _ induction => exact .cons good (.ofForall induction)

theorem hereditary_of_ends {rounds : Nat} (ends : (next successors)^[rounds] work = [])
    (good : ∀ round item others,
      (next successors)^[round] work = item :: others → Good item) :
    ∀ item ∈ work, Hereditary successors Good item := by
  induction rounds generalizing work with
  | zero =>
      obtain rfl : work = [] := ends
      exact fun item member => absurd member List.not_mem_nil
  | succ rounds induction =>
      cases work with
      | nil => exact fun item member => absurd member List.not_mem_nil
      | cons first rest =>
          have later : ∀ item ∈ next successors (first :: rest),
              Hereditary successors Good item :=
            induction ends fun round => good (round + 1)
          have here : Hereditary successors Good first :=
            .intro (good 0 first rest rfl) fun successor member =>
              later successor (List.mem_append_left _ member)
          intro item member
          rcases List.mem_cons.mp member with rfl | inRest
          · exact here
          · exact later item (List.mem_append_right _ inRest)

theorem iterate_nil (rounds : Nat) : (next successors)^[rounds] [] = [] :=
  Function.iterate_fixed rfl rounds

/-- The loop ends and takes good items only, just if the items are good
hereditarily. -/
theorem ends_and_good_iff :
    ((∃ rounds, (next successors)^[rounds] work = []) ∧
      ∀ round item others,
        (next successors)^[round] work = item :: others → Good item) ↔
      ∀ item ∈ work, Hereditary successors Good item := by
  constructor
  · rintro ⟨⟨rounds, ends⟩, good⟩
    exact hereditary_of_ends ends good
  · intro hereditary
    obtain ⟨rounds, done⟩ := Done.ofForall fun item member =>
      (hereditary item member).done
    obtain ⟨ends, good⟩ := done []
    rw [List.append_nil] at ends good
    refine ⟨⟨rounds, ends⟩, fun round item others taken => ?_⟩
    by_cases soon : round < rounds
    · exact good round soon item others taken
    · have split : round = (round - rounds) + rounds := by omega
      rw [split, Function.iterate_add_apply, ends, iterate_nil] at taken
      cases taken

end Worklist
