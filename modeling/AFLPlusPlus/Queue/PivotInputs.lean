import AFLPlusPlus.Queue.ReadTestcases
import AFLPlusPlus.Support.Decimal
import AFLPlusPlus.Support.Loops
import AFLPlusPlus.Support.Paths

/-!
# Pivoting the initial corpus into the queue directory

`pivot_inputs` links the loaded files into the queue of the new run.  A file
whose name records the id it is given keeps its name, and its depth is taken
from the entry that the name gives as its source.
-/

namespace AFLPlusPlus

/-- `isspace`, in the C locale. -/
def isSpace (char : Char) : Bool := char = ' ' || (9 ≤ char.toNat && char.toNat ≤ 13)

/-- `sscanf(text, "%06u", &value)`: at most six characters after the white
space, a sign among them. -/
def scanU06 (text : CString) : Option Nat :=
  let field := (text.dropWhile isSpace).take 6
  match field with
  | '-' :: rest => scanDigits rest fun value => (2 ^ 32 - value) % 2 ^ 32
  | '+' :: rest => scanDigits rest id
  | _ => scanDigits field id
where
  /-- The number at the start of a text, if there is one. -/
  scanDigits (text : CString) (read : Nat → Nat) : Option Nat :=
    let digits := text.takeWhile Char.isDigit
    if digits = [] then none else some (read (Decimal.value digits))

/-- The id that a name starts with. -/
def recordedId (rsl : CString) : Option Nat :=
  if rsl.take 3 = ['i', 'd', ':'] then scanU06 (rsl.drop 3) else none

/-- The number after the first colon past the id. -/
def sourceNumber (rsl : CString) : Option Nat :=
  match (rsl.drop 3).dropWhile (· ≠ ':') with
  | [] => none
  | _ :: rest => scanU06 rest

/-- `strstr(rsl, ",orig:")`, moved behind the match. -/
def afterOrig : CString → Option CString
  | [] => none
  | char :: rest =>
      if ",orig:".toList.isPrefixOf (char :: rest) then
        some ((char :: rest).drop 6)
      else afterOrig rest

/-- A new name, with the original one as a substring. -/
def inventedName (id : Nat) (rsl : CString) : CString :=
  idEntry id ++ ",time:0,orig:".toList ++ (afterOrig rsl).getD rsl

/-- The variables of `pivot_inputs`, with the calls of `link_or_copy`. -/
structure Pivoting where
  queue : CorpusQueue
  id : Nat
  links : List (CString × CString)
  resumingFuzz : Bool
  /-- `queue_buf[i]` was NULL -/
  ended : Bool

namespace Pivoting

/-- The depth of an entry whose name was kept. -/
def sourceDepth (pivoting : Pivoting) (q : CorpusEntry) (rsl : CString) :
    Nat :=
  match sourceNumber rsl with
  | none => q.depth
  | some srcId =>
      if srcId < pivoting.queue.queuedPaths then
        match pivoting.queue.queueBuf srcId with
        | none => q.depth
        | some s => s.depth + 1
      else q.depth

/-- Pivot to the new queue entry. -/
def pivot (pivoting : Pivoting) (i : Nat) (q : CorpusEntry) (nfn : CString) :
    Pivoting :=
  { pivoting with
    queue := { pivoting.queue with
      queueBuf := Function.update pivoting.queue.queueBuf i
        (some { q with fname := nfn }) }
    id := pivoting.id + 1
    links := pivoting.links ++ [(q.fname, nfn)] }

/-- One entry of the loop of `pivot_inputs`. -/
def round (outDir : CString) (i : Nat) (pivoting : Pivoting) : Pivoting :=
  if pivoting.ended then pivoting
  else
    match pivoting.queue.queueBuf i with
    | none => { pivoting with ended := true }
    | some q =>
        if q.disabled then pivoting
        else
          let rsl := Paths.baseName q.fname
          if recordedId rsl = some pivoting.id then
            { pivoting with resumingFuzz := true }.pivot i
              { q with depth := pivoting.sourceDepth q rsl }
              (outDir ++ "/queue/".toList ++ rsl)
          else
            pivoting.pivot i q
              (outDir ++ "/queue/".toList ++ inventedName pivoting.id rsl)

end Pivoting

def pivotInputs (outDir : CString) (queue : CorpusQueue) : Pivoting :=
  forRange (Pivoting.round outDir) queue.queuedPaths
    { queue
      id := 0
      links := []
      resumingFuzz := false
      ended := false }

theorem baseName_path (dir : CString) (file : InputFile) :
    Paths.baseName (file.path dir) = file.dName :=
  Paths.baseName_slash dir file.component

private theorem digitChar_value (number : Nat) :
    (digitChar number).toNat - 48 = number % 10 := by
  have table : ∀ digit < 10, (Char.ofNat (48 + digit)).toNat - 48 = digit := by
    decide
  exact table _ (Nat.mod_lt _ (by decide))

private theorem digitChar_plain (number : Nat) :
    (digitChar number).isDigit = true ∧ isSpace (digitChar number) = false ∧
      digitChar number ≠ '-' ∧ digitChar number ≠ '+' := by
  have table : ∀ digit < 10, (Char.ofNat (48 + digit)).isDigit = true ∧
      isSpace (Char.ofNat (48 + digit)) = false ∧
      Char.ofNat (48 + digit) ≠ '-' ∧ Char.ofNat (48 + digit) ≠ '+' := by
    decide
  exact table _ (Nat.mod_lt _ (by decide))

theorem scanU06_decimal06 {id : Nat} (small : id < 1000000)
    (rest : CString) : scanU06 (decimal06 id ++ rest) = some id := by
  have digit := fun number => (digitChar_plain number).1
  have first := digitChar_plain (id / 100000)
  have field : ((decimal06 id ++ rest).dropWhile isSpace).take 6 = decimal06 id := by
    rw [decimal06, if_pos small, List.cons_append, List.dropWhile_cons, first.2.1]
    rfl
  have number : Decimal.value (decimal06 id) = id := by
    rw [decimal06, if_pos small]
    simp only [Decimal.value, Nat.ofDigitChars, List.foldl_cons,
      List.foldl_nil, show '0'.toNat = 48 from rfl, digitChar_value]
    omega
  have digits : (decimal06 id).takeWhile Char.isDigit = decimal06 id := by
    rw [decimal06, if_pos small]
    simp [digit]
  have nonempty : decimal06 id ≠ [] := by
    rw [decimal06, if_pos small]
    exact List.cons_ne_nil _ _
  have scanned : scanU06.scanDigits (decimal06 id) (fun value => value) = some id := by
    rw [scanU06.scanDigits, digits, if_neg nonempty, number]
  rw [scanU06, field]
  rw [decimal06, if_pos small] at scanned ⊢
  split
  · rename_i minus
    exact absurd (List.cons.inj minus).1 first.2.2.1
  · rename_i plus
    exact absurd (List.cons.inj plus).1 first.2.2.2
  · exact scanned

theorem recordedId_idEntry {id : Nat} (small : id < 1000000)
    (rest : CString) : recordedId (idEntry id ++ rest) = some id := by
  rw [recordedId, idEntry]
  exact scanU06_decimal06 small rest

/-- The name that the file at an index gets. -/
def pivotName (index : Nat) (rsl : CString) : CString :=
  if recordedId rsl = some index then rsl else inventedName index rsl

def queuePath (outDir name : CString) : CString := outDir ++ "/queue/".toList ++ name

namespace Pivoting

/-- The depth of an entry, 1 as long as nothing else is known of it. -/
def depthAt (pivoting : Pivoting) (index : Nat) : Nat :=
  match pivoting.queue.queueBuf index with
  | none => 1
  | some q => q.depth

/-- What becomes of the depth of the file at an index: an entry that comes
later still has the depth 1. -/
def DepthFrom (pivoting : Pivoting) (count index : Nat) (rsl : CString)
    (depth : Nat) : Prop :=
  depth =
    if recordedId rsl = some index then
      match sourceNumber rsl with
      | none => 1
      | some srcId =>
          if srcId < count then
            (if srcId < index then pivoting.depthAt srcId else 1) + 1
          else 1
    else 1

/-- The files before an index are pivoted, the others are as they were read. -/
structure Pivoted (dir outDir : CString) (files : List InputFile)
    (index : Nat) (pivoting : Pivoting) : Prop where
  queuedPaths : pivoting.queue.queuedPaths = files.length
  id : pivoting.id = index
  running : pivoting.ended = false
  links : ∀ link, link ∈ pivoting.links ↔
    ∃ earlier, ∃ (inside : earlier < files.length), earlier < index ∧
      link = ((files.get ⟨earlier, inside⟩).path dir,
        queuePath outDir (pivotName earlier (files.get ⟨earlier, inside⟩).dName))
  pivoted : ∀ earlier (inside : earlier < files.length), earlier < index →
    ∃ q, pivoting.queue.queueBuf earlier = some q ∧ q.id = earlier ∧
      q.fname = queuePath outDir (pivotName earlier
        (files.get ⟨earlier, inside⟩).dName) ∧
      pivoting.DepthFrom files.length earlier
        (files.get ⟨earlier, inside⟩).dName q.depth
  unpivoted : ∀ later (inside : later < files.length), index ≤ later →
    ∃ q, pivoting.queue.queueBuf later = some q ∧ q.id = later ∧
      q.fname = (files.get ⟨later, inside⟩).path dir ∧
      q.depth = 1 ∧ q.disabled = false

variable {dir outDir : CString} {files : List InputFile} {index : Nat}
  {pivoting : Pivoting}

/-- One entry is pivoted; what is known of the earlier ones stays true. -/
theorem Pivoted.next (pivoted : Pivoted dir outDir files index pivoting)
    (inside : index < files.length) {q : CorpusEntry}
    (entry : pivoting.queue.queueBuf index = some q) {depth : Nat}
    (depthFrom : pivoting.DepthFrom files.length index
      (files.get ⟨index, inside⟩).dName depth) {resuming : Bool} :
    Pivoted dir outDir files (index + 1)
      ({ pivoting with resumingFuzz := resuming }.pivot index
        { q with depth } (queuePath outDir (pivotName index
          (files.get ⟨index, inside⟩).dName))) := by
  obtain ⟨old, oldEntry, oldId, oldName, _, _⟩ :=
    pivoted.unpivoted index inside (Nat.le_refl _)
  rw [entry] at oldEntry
  obtain rfl := Option.some.inj oldEntry
  have others : ∀ other, other ≠ index →
      ({ pivoting with resumingFuzz := resuming }.pivot index { q with depth }
        (queuePath outDir (pivotName index
          (files.get ⟨index, inside⟩).dName))).queue.queueBuf other =
        pivoting.queue.queueBuf other := fun other different =>
    Function.update_of_ne different _ _
  have sameDepths : ∀ other, other ≠ index →
      ({ pivoting with resumingFuzz := resuming }.pivot index { q with depth }
        (queuePath outDir (pivotName index
          (files.get ⟨index, inside⟩).dName))).depthAt other =
        pivoting.depthAt other := by
    intro other different
    rw [depthAt, depthAt, others other different]
  have sameFrom : ∀ earlier, earlier ≤ index → ∀ rsl depth',
      pivoting.DepthFrom files.length earlier rsl depth' →
      ({ pivoting with resumingFuzz := resuming }.pivot index { q with depth }
        (queuePath outDir (pivotName index
          (files.get ⟨index, inside⟩).dName))).DepthFrom files.length earlier
        rsl depth' := by
    intro earlier before rsl depth' holds
    unfold DepthFrom at holds ⊢
    rw [holds]
    split
    · split
      · rfl
      · split
        · split
          · rw [sameDepths _ (by omega)]
          · rfl
        · rfl
    · rfl
  constructor
  · exact pivoted.queuedPaths
  · rw [pivot, pivoted.id]
  · exact pivoted.running
  · intro link
    rw [pivot, List.mem_append, List.mem_singleton, pivoted.links]
    constructor
    · rintro (⟨earlier, within, before, rfl⟩ | rfl)
      · exact ⟨earlier, within, by omega, rfl⟩
      · exact ⟨index, inside, Nat.lt_succ_self _, by rw [← oldName]⟩
    · rintro ⟨earlier, within, before, rfl⟩
      by_cases last : earlier = index
      · subst last
        exact .inr (by rw [← oldName])
      · exact .inl ⟨earlier, within, by omega, rfl⟩
  · intro earlier within before
    by_cases last : earlier = index
    · subst last
      exact ⟨_, Function.update_self _ _ _, oldId, rfl,
        sameFrom earlier (Nat.le_refl _) _ _ depthFrom⟩
    · obtain ⟨r, found, id, name, from_⟩ := pivoted.pivoted earlier within (by omega)
      exact ⟨r, (others earlier last).trans found, id, name,
        sameFrom earlier (by omega) _ _ from_⟩
  · intro later within notYet
    obtain ⟨r, found, rest⟩ := pivoted.unpivoted later within (by omega)
    exact ⟨r, (others later (by omega)).trans found, rest⟩

theorem Pivoted.round (pivoted : Pivoted dir outDir files index pivoting)
    (inside : index < files.length) :
    Pivoted dir outDir files (index + 1)
      (Pivoting.round outDir index pivoting) := by
  obtain ⟨q, entry, _, name, depth, enabled⟩ :=
    pivoted.unpivoted index inside (Nat.le_refl _)
  have rsl : Paths.baseName q.fname = (files.get ⟨index, inside⟩).dName := by
    rw [name, baseName_path]
  unfold Pivoting.round
  rw [if_neg (by rw [pivoted.running]; exact Bool.noConfusion), entry]
  dsimp only
  rw [if_neg (by rw [enabled]; exact Bool.noConfusion), rsl]
  have next := @Pivoted.next dir outDir files index pivoting pivoted inside q
    entry
  unfold pivotName at next
  split
  · rename_i recorded
    rw [pivoted.id] at recorded
    rw [if_pos recorded] at next
    refine next ?_
    unfold DepthFrom sourceDepth
    rw [if_pos recorded, pivoted.queuedPaths]
    split
    · exact depth
    · rename_i srcId _
      split
      · rename_i counted
        by_cases before : srcId < index
        · obtain ⟨s, found, _⟩ := pivoted.pivoted srcId counted before
          rw [if_pos before, depthAt, found]
        · obtain ⟨s, found, _, _, one, _⟩ := pivoted.unpivoted srcId counted (by omega)
          rw [if_neg before, found]
          exact congrArg (· + 1) one
      · exact depth
  · rename_i unrecorded
    rw [pivoted.id] at unrecorded ⊢
    rw [if_neg unrecorded] at next
    have kept : pivoting.DepthFrom files.length index
        (files.get ⟨index, inside⟩).dName q.depth := by
      unfold DepthFrom
      rw [if_neg unrecorded, depth]
    exact next kept

theorem pivotInputs_pivoted {queue : CorpusQueue}
    (holds : CorpusQueue.Holds dir files queue) :
    Pivoted dir outDir files files.length (pivotInputs outDir queue) := by
  obtain ⟨length, entries, _⟩ := holds
  rw [pivotInputs, length]
  refine forRange_invariant (Pivoting.round outDir)
    (fun index pivoting => Pivoted dir outDir files index pivoting) _ ?_
    files.length fun index inside pivoting pivoted => pivoted.round inside
  refine ⟨length, rfl, rfl, ?_, ?_, ?_⟩
  · intro link
    exact ⟨fun none => (List.not_mem_nil none).elim,
      fun ⟨_, _, before, _⟩ => absurd before (Nat.not_lt_zero _)⟩
  · intro earlier _ none
    exact absurd none (Nat.not_lt_zero _)
  · intro later inside _
    obtain ⟨len, passedDet, entry⟩ := entries later inside
    exact ⟨_, entry, rfl, rfl, rfl, rfl⟩

end Pivoting

end AFLPlusPlus
