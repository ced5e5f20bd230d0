import AFLPlusPlus.Dictionary.Deunicode
import AFLPlusPlus.Support.Transitions

/-!
# The extras over whole runs

Dictionaries are loaded from files and directories, and the list is changed by
`dedup_extras`, `deunicode_extras` and `add_extra` in any order.
-/

namespace AFLPlusPlus.Dictionary

namespace Extras

/-- The loop of `load_extras_file` over the lines.  There is no result when a
value is not read to its end. -/
def storeLines (dictLevel : BitVec 32) (fuel : Nat) :
    List Text → Extras → Option (Except Unit Extras)
  | [], state => some (.ok state)
  | line :: rest, state =>
      match quotedValue dictLevel line with
      | .error _ => storeLines dictLevel fuel rest state
      | .ok value =>
          match storeValue fuel value (List.replicate value.length 0#8) 0 with
          | none => none
          | some (.error fault) => some (.error fault)
          | some (.ok (block, klen)) =>
              let state := state.place block klen
              -- a keyword that is too big keeps its block
              storeLines dictLevel fuel rest
                (if maxDictFile < klen then state else state.count)

/-- An entry of a directory: whether it is a regular file, and its bytes. -/
structure DirEntry where
  regular : Bool
  content : Text

/-- The loop of `load_extras` over a directory. -/
def storeFiles : List DirEntry → Extras → Extras
  | [], state => state
  | entry :: rest, state =>
      if ¬entry.regular ∨ entry.content = [] ∨
          maxDictFile < entry.content.length then storeFiles rest state
      else storeFiles rest
        (state.place entry.content entry.content.length).count

variable (qsort : (ExtraData → ExtraData → Int) → List ExtraData → List ExtraData)

/-- `extras_check_and_sort` -/
def checkAndSort (state : Extras) : Extras :=
  if state.extrasCnt = 0 then state else state.sort qsort

end Extras

inductive DictSource where
  | file (content : Text)
  | directory (entries : List Extras.DirEntry)

namespace Extras

variable (qsort : (ExtraData → ExtraData → Int) → List ExtraData → List ExtraData)

/-- `load_extras`: behind the first `@` of the path stands the level, which a
directory must not have.  There is no result when the program ends. -/
def loadExtras (sources : Text → Option DictSource) (fuel : Nat) (dir : Text)
    (state : Extras) : Option (Except Unit Extras) :=
  let level := dir.dropWhile (· ≠ 64#8)
  let dictLevel := if level = [] then 0#32 else atoi level.tail
  match sources (dir.takeWhile (· ≠ 64#8)) with
  | none => none
  | some (.file content) =>
      (storeLines dictLevel fuel (fgets [] content) state).map
        (Except.map (checkAndSort qsort))
  | some (.directory entries) =>
      if level ≠ [] then none
      else some (.ok (checkAndSort qsort (storeFiles entries state)))

/-- The calls that change the list. -/
inductive Call where
  | loadExtras (sources : Text → Option DictSource) (fuel : Nat) (dir : Text)
  | dedupExtras
  | deunicodeExtras (buf : Vector (BitVec 8) 64)
  | addExtra (mem : Text)

def Call.run : Call → Extras → Option (Except Unit Extras)
  | loadExtras sources fuel dir, state =>
      state.loadExtras qsort sources fuel dir
  | dedupExtras, state => some state.dedupExtras
  | deunicodeExtras buf, state => some (state.deunicodeExtras qsort buf)
  | addExtra mem, state => some (state.addExtra qsort mem)

def step (call : Call) (state : Extras) : Option Extras :=
  (call.run qsort state).bind Except.toOption

variable {state : Extras}

/-- The array gets the tokens that `loadLines` finds. -/
theorem storeLines_refines (dictLevel : BitVec 32) (fuel curLine : Nat)
    (lines : List Text) (valid : state.Valid) {loaded : LoadedExtras}
    (same : loaded.extras = state.tokens) :
    (storeLines dictLevel fuel lines state = none ∧
      loadLines dictLevel (fun _ => true) fuel curLine lines loaded = none) ∨
    ∃ next found, storeLines dictLevel fuel lines state = some (.ok next) ∧
      loadLines dictLevel (fun _ => true) fuel curLine lines loaded =
        some (.ok found) ∧
      next.Valid ∧ found.extras = next.tokens ∧
      state.tokens <+: next.tokens := by
  induction lines generalizing curLine state loaded with
  | nil =>
      exact .inr ⟨state, loaded, rfl, rfl, valid, same, List.prefix_refl _⟩
  | cons line rest induction =>
      rw [storeLines, loadLines]
      cases quoted : quotedValue dictLevel line with
      | error skip => exact induction (curLine + 1) valid same
      | ok value =>
          simp only
          have size := List.length_replicate (n := value.length) (a := 0#8)
          rcases @storeValue_stores fuel value
            (List.replicate value.length 0#8) 0 (by omega) with
            ⟨stuck, stuck'⟩ | ⟨token, block, copied, stored, length, seen⟩
          · rw [List.take_zero] at stuck
            rw [stuck', stuck]
            exact .inl ⟨rfl, rfl⟩
          rw [List.take_zero] at copied
          rw [stored, copied]
          simp only
          have long : token.length ≤ block.length := by
            rw [← seen]
            exact List.length_take_le' _ _
          by_cases big : maxDictFile < token.length
          · have placed : (state.place block token.length).Valid :=
              valid.place (Nat.lt_of_lt_of_le big long)
            have tokens := tokens_placed valid block token.length
            rw [if_pos big]
            have kept : (loaded.add token).extras =
                (state.place block token.length).tokens := by
              rw [tokens, LoadedExtras.add, if_pos big, same]
            rw [← tokens]
            exact induction (curLine + 1) placed kept
          · have counted := valid.count_place long (Nat.not_lt.mp big)
            have tokens := tokens_count_place valid block token.length
            rw [seen] at tokens
            rw [if_neg big]
            have added : (loaded.add token).extras =
                (state.place block token.length).count.tokens := by
              rw [tokens, LoadedExtras.add, if_neg big, same]
            refine (induction (curLine + 1) counted added).imp_right ?_
            rintro ⟨next, found, ran, loads, nextValid, same, grown⟩
            refine ⟨next, found, ran, loads, nextValid, same, ?_⟩
            rw [tokens] at grown
            exact (List.prefix_append _ _).trans grown

theorem Valid.storeFiles (entries : List DirEntry) (valid : state.Valid) :
    (storeFiles entries state).Valid ∧
      state.tokens <+: (storeFiles entries state).tokens := by
  induction entries generalizing state with
  | nil => exact ⟨valid, List.prefix_refl _⟩
  | cons entry rest induction =>
      rw [Extras.storeFiles]
      split
      · exact induction valid
      · rename_i taken
        have small := Nat.not_lt.mp fun big => taken (.inr (.inr big))
        obtain ⟨next, grown⟩ := induction (valid.count_place (Nat.le_refl _) small)
        rw [tokens_count_place valid] at grown
        exact ⟨next, (List.prefix_append _ _).trans grown⟩

variable {qsort}

theorem Valid.checkAndSort (sorts : Qsort.Sorts qsort) (valid : state.Valid) :
    (state.checkAndSort qsort).Valid ∧
      (state.checkAndSort qsort).tokens.Perm state.tokens ∧
      SortedByLen (state.checkAndSort qsort).tokens := by
  rw [Extras.checkAndSort]
  split
  · rename_i none
    have length := valid.length_tokens
    rw [none, List.length_eq_zero_iff] at length
    exact ⟨valid, .refl _, length ▸ .nil⟩
  · exact valid.sort sorts

/-- Loading keeps the tokens there are. -/
theorem Valid.loadExtras (sorts : Qsort.Sorts qsort) (valid : state.Valid)
    {sources : Text → Option DictSource} {fuel : Nat} {dir : Text}
    {result : Except Unit Extras}
    (ran : state.loadExtras qsort sources fuel dir = some result) :
    ∃ next, result = .ok next ∧ next.Valid ∧ SortedByLen next.tokens ∧
      state.tokens ⊆ next.tokens := by
  have finish : ∀ stored : Extras, stored.Valid →
      state.tokens <+: stored.tokens → ∃ next,
        Except.ok (stored.checkAndSort qsort) = (.ok next : Except Unit _) ∧
        next.Valid ∧ SortedByLen next.tokens ∧
        state.tokens ⊆ next.tokens := by
    intro stored storedValid grown
    obtain ⟨next, perm, sorted⟩ := storedValid.checkAndSort sorts
    exact ⟨_, rfl, next, sorted, fun _ mem =>
      perm.symm.subset (grown.subset mem)⟩
  rw [Extras.loadExtras] at ran
  split at ran
  · cases ran
  · rename_i content _
    rw [Option.map_eq_some_iff] at ran
    obtain ⟨stored, ran, rfl⟩ := ran
    have before : (⟨state.tokens, 0, 0⟩ : LoadedExtras).extras = state.tokens := rfl
    rcases storeLines_refines _ fuel 0 (fgets [] content) valid before with
      ⟨stuck, _⟩ | ⟨next, _, stores, _, nextValid, _, grown⟩
    · rw [stuck] at ran
      cases ran
    · rw [stores] at ran
      obtain rfl := Option.some.inj ran
      exact finish next nextValid grown
  · split at ran
    · cases ran
    · rename_i entries _ _
      obtain rfl := Option.some.inj ran
      obtain ⟨next, grown⟩ := valid.storeFiles entries
      exact finish _ next grown

def Sound (state : Extras) : Prop := state.Valid ∧ SortedByLen state.tokens

theorem sound_start : start.Sound := ⟨valid_start, .nil⟩

/-- A call that returns has accessed nothing that it must not, and leaves the
list sorted. -/
theorem Sound.call (sorts : Qsort.Sorts qsort) (sound : state.Sound)
    (call : Call) {result : Except Unit Extras}
    (ran : call.run qsort state = some result) :
    ∃ next, result = .ok next ∧ next.Sound := by
  obtain ⟨valid, sorted⟩ := sound
  cases call with
  | loadExtras sources fuel dir =>
      obtain ⟨next, same, nextValid, order, _⟩ := valid.loadExtras sorts ran
      exact ⟨next, same, nextValid, order⟩
  | dedupExtras =>
      obtain ⟨next, deduped, nextValid, tokens⟩ := valid.dedupExtras sorted
      obtain rfl := Option.some.inj ran
      refine ⟨next, deduped, nextValid, ?_⟩
      rw [tokens]
      exact sorted.sublist (eraseDups_sublist _)
  | deunicodeExtras buf =>
      obtain ⟨next, decoded, nextValid, perm, order⟩ := valid.deunicodeExtras sorts buf
      obtain rfl := Option.some.inj ran
      refine ⟨next, decoded, nextValid, ?_⟩
      by_cases none : state.extrasCnt = 0
      · have length := valid.length_tokens
        rw [none, List.length_eq_zero_iff] at length
        rw [length] at perm
        rw [List.perm_nil.mp perm]
        exact .nil
      · exact order none
  | addExtra mem =>
      obtain ⟨next, added, nextValid, order, _⟩ := valid.addExtra sorts sorted mem
      obtain rfl := Option.some.inj ran
      exact ⟨next, added, nextValid, order⟩

theorem Sound.run (sorts : Qsort.Sorts qsort) {calls : List Call}
    {reached : Extras} (runs : runMoves (step qsort) calls start =
      some reached) : reached.Sound := by
  refine runMoves_invariant Sound ?_ sound_start runs
  intro call state next sound stepped
  rw [step, Option.bind_eq_some_iff] at stepped
  obtain ⟨result, ran, ok⟩ := stepped
  obtain ⟨after, rfl, nextSound⟩ := sound.call sorts call ran
  obtain rfl := Option.some.inj ok
  exact nextSound

/-- Before and after every call the tokens are sorted, there are as many as
`extras_cnt`, each with a live block of its own, and no call accesses anything
else; duplicates are removed and refused, and no token is lost. -/
theorem extras_invariant (sorts : Qsort.Sorts qsort) {calls : List Call}
    {reached : Extras}
    (runs : runMoves (step qsort) calls start = some reached) :
    reached.Valid ∧ SortedByLen reached.tokens ∧
      reached.extrasCnt = reached.tokens.length ∧
      (∀ call : Call, call.run qsort reached ≠ some (.error ())) ∧
      (∃ next, reached.dedupExtras = .ok next ∧ next.tokens.Nodup ∧
        ∀ token, token ∈ next.tokens ↔ token ∈ reached.tokens) ∧
      ∀ mem, ∃ next, reached.addExtra qsort mem = .ok next ∧
        if mem ∈ reached.tokens ∨ maxDictFile < mem.length then
          next.tokens = reached.tokens
        else next.tokens.Perm (reached.tokens ++ [mem]) := by
  obtain ⟨valid, sorted⟩ := Sound.run sorts runs
  refine ⟨valid, sorted, valid.length_tokens.symm, ?_, ?_, ?_⟩
  · intro call failed
    obtain ⟨next, same, _⟩ := Sound.call sorts ⟨valid, sorted⟩ call failed
    cases same
  · obtain ⟨next, deduped, _, tokens⟩ := valid.dedupExtras sorted
    refine ⟨next, deduped, ?_, fun token => ?_⟩
    · rw [tokens]
      exact nodup_eraseDups _
    · rw [tokens]
      exact mem_eraseDups
  · intro mem
    obtain ⟨next, added, _, _, result⟩ := valid.addExtra sorts sorted mem
    exact ⟨next, added, result⟩

theorem extras_invariant_case :
    ∃ reached, runMoves (step Qsort.insertionSort)
        [.addExtra [98#8, 97#8], .addExtra [97#8], .addExtra [98#8, 97#8]]
        start = some reached ∧
      reached.tokens = [[97#8], [98#8, 97#8]] ∧
      SortedByLen reached.tokens := by
  have runs : runMoves (step Qsort.insertionSort)
      [.addExtra [98#8, 97#8], .addExtra [97#8], .addExtra [98#8, 97#8]]
      start = some
        (((start.addExtraNocheck [98#8, 97#8]).sort
          Qsort.insertionSort).addExtraNocheck [97#8] |>.sort
          Qsort.insertionSort) := by
    rfl
  exact ⟨_, runs, rfl, (extras_invariant Qsort.insertionSort_sorts runs).2.1⟩

end Extras

end AFLPlusPlus.Dictionary
