import AFLPlusPlus.Sync.ForeignImport
import Mathlib.Data.List.Nodup

/-!
# Listings of a queue directory

The names `id:%06u,...` of queue files and the order in which `scandir` lists
them.  As long as no id needs a seventh digit the order of the names is the
order of the ids, and the first nine characters tell the id.
-/

namespace AFLPlusPlus

/-- A file in a queue directory with what `open` and `fstat` say about it. -/
structure QueueFile where
  dName : CString
  /-- `open` succeeds -/
  opens : Bool
  /-- `st_size` -/
  size : Nat
  deriving DecidableEq

def digitChar (value : Nat) : Char := Char.ofNat (48 + value % 10)

/-- A number as `%06u` prints it. -/
def decimal06 (value : Nat) : CString :=
  if value < 1000000 then
    [digitChar (value / 100000), digitChar (value / 10000),
      digitChar (value / 1000), digitChar (value / 100),
      digitChar (value / 10), digitChar value]
  else Nat.toDigits 10 value

/-- `"id:%06u"` -/
def idEntry (value : Nat) : CString := 'i' :: 'd' :: ':' :: decimal06 value

/-- `!strncmp(name, entry, 9)` -/
def startsLike (name entry : CString) : Bool := decide (name.take 9 = entry.take 9)

/-- `strcmp(first, second) <= 0` -/
def notAfter : CString → CString → Bool
  | [], _ => true
  | _ :: _, [] => false
  | a :: first, b :: second =>
      if a = b then notAfter first second else decide (a.toNat < b.toNat)

/-- `alphasort`, in the C locale. -/
def alphasort (first second : QueueFile) : Bool := notAfter first.dName second.dName

/-- `scandir` without a filter. -/
def scandir (directory : List QueueFile) : List QueueFile :=
  directory.mergeSort alphasort

/-- A dot file, such as the directories `.`, `..` and `.state`. -/
def QueueFile.Hidden (file : QueueFile) : Prop := ∃ rest, file.dName = '.' :: rest

def QueueFile.IsCase (file : QueueFile) (id : Nat) : Prop :=
  id < 1000000 ∧ ∃ rest, file.dName = idEntry id ++ rest

variable {first second : Nat}

private theorem digitChar_lt :
    (digitChar first).toNat < (digitChar second).toNat ↔ first % 10 < second % 10 := by
  have table : ∀ a < 10, ∀ b < 10,
      ((Char.ofNat (48 + a)).toNat < (Char.ofNat (48 + b)).toNat ↔ a < b) := by
    decide
  exact table _ (Nat.mod_lt _ (by decide)) _ (Nat.mod_lt _ (by decide))

private theorem digitChar_eq :
    digitChar first = digitChar second ↔ first % 10 = second % 10 := by
  have table : ∀ a < 10, ∀ b < 10,
      (Char.ofNat (48 + a) = Char.ofNat (48 + b) ↔ a = b) := by decide
  exact table _ (Nat.mod_lt _ (by decide)) _ (Nat.mod_lt _ (by decide))

theorem notAfter_cons {a b : Char} {first second : CString} :
    notAfter (a :: first) (b :: second) = true ↔
      a.toNat < b.toNat ∨ a = b ∧ notAfter first second = true := by
  rw [notAfter]
  split
  · rename_i same
    subst same
    simp only [true_and, Nat.lt_irrefl, false_or]
  · rename_i different
    simp only [different, false_and, or_false, decide_eq_true_eq]

theorem notAfter_trans {first second third : CString}
    (before : notAfter first second = true)
    (after : notAfter second third = true) : notAfter first third = true := by
  induction first generalizing second third with
  | nil => rfl
  | cons a first induction =>
      cases second with
      | nil => exact absurd before Bool.false_ne_true
      | cons b second =>
          cases third with
          | nil => exact absurd after Bool.false_ne_true
          | cons c third =>
              rw [notAfter_cons] at *
              rcases before with less | ⟨rfl, before⟩
              · rcases after with less' | ⟨rfl, _⟩
                · exact .inl (Nat.lt_trans less less')
                · exact .inl less
              · rcases after with less' | ⟨rfl, after⟩
                · exact .inl less'
                · exact .inr ⟨rfl, induction before after⟩

theorem notAfter_total (first second : CString) :
    notAfter first second = true ∨ notAfter second first = true := by
  induction first generalizing second with
  | nil => exact .inl rfl
  | cons a first induction =>
      cases second with
      | nil => exact .inr rfl
      | cons b second =>
          rw [notAfter_cons, notAfter_cons]
          rcases Nat.lt_trichotomy a.toNat b.toNat with less | same | more
          · exact .inl (.inl less)
          · obtain rfl := Char.toNat_inj.mp same
            exact (induction second).imp (fun before => .inr ⟨rfl, before⟩)
              (fun after => .inr ⟨rfl, after⟩)
          · exact .inr (.inl more)

theorem notAfter_antisymm {first second : CString}
    (before : notAfter first second = true)
    (after : notAfter second first = true) : first = second := by
  induction first generalizing second with
  | nil =>
      cases second with
      | nil => rfl
      | cons b second => exact absurd after Bool.false_ne_true
  | cons a first induction =>
      cases second with
      | nil => exact absurd before Bool.false_ne_true
      | cons b second =>
          rw [notAfter_cons] at *
          rcases before with less | ⟨rfl, before⟩
          · rcases after with less' | ⟨rfl, _⟩
            · exact absurd less' (Nat.lt_asymm less)
            · exact absurd less (Nat.lt_irrefl _)
          · rcases after with less' | ⟨_, after⟩
            · exact absurd less' (Nat.lt_irrefl _)
            · rw [induction before after]

theorem idEntry_take {id : Nat} (small : id < 1000000) (rest : CString) :
    (idEntry id ++ rest).take 9 = idEntry id := by
  rw [idEntry, decimal06, if_pos small]
  rfl

theorem idEntry_injective (firstSmall : first < 1000000) (secondSmall : second < 1000000)
    (same : idEntry first = idEntry second) : first = second := by
  rw [idEntry, idEntry, decimal06, decimal06, if_pos firstSmall,
    if_pos secondSmall] at same
  simp only [List.cons.injEq, digitChar_eq, true_and, and_true] at same
  omega

private theorem lastDigit (tens : first / 10 = second / 10) (less : first ≤ second) :
    first % 10 < second % 10 ∨ first % 10 = second % 10 ∧ first = second := by
  omega

private theorem lastDigit_rest {rest : Prop} (tens : first / 10 = second / 10)
    (less : first ≤ second) (goOn : first = second → rest) :
    first % 10 < second % 10 ∨ first % 10 = second % 10 ∧ rest :=
  (lastDigit tens less).imp id fun both => ⟨both.1, goOn both.2⟩

theorem idEntry_notAfter (less : first < second) (small : second < 1000000)
    (firstRest secondRest : CString) :
    notAfter (idEntry first ++ firstRest) (idEntry second ++ secondRest) =
      true := by
  rw [idEntry, idEntry, decimal06, decimal06,
    if_pos (Nat.lt_trans less small), if_pos small]
  simp only [List.cons_append, notAfter_cons, digitChar_lt, digitChar_eq, true_and]
  have le : ∀ scale, first / scale ≤ second / scale := fun scale =>
    Nat.div_le_div_right (Nat.le_of_lt less)
  refine .inr (.inr (.inr ?_))
  refine lastDigit_rest (by omega) (le _) fun same => ?_
  refine lastDigit_rest (by omega) (le _) fun same => ?_
  refine lastDigit_rest (by omega) (le _) fun same => ?_
  refine lastDigit_rest (by omega) (le _) fun same => ?_
  refine lastDigit_rest (by omega) (le _) fun same => ?_
  refine lastDigit_rest (by omega) (Nat.le_of_lt less) fun same => ?_
  omega

theorem QueueFile.Hidden.notAfter {hidden file : QueueFile} {id : Nat}
    (dot : hidden.Hidden) (isCase : file.IsCase id) :
    notAfter hidden.dName file.dName = true := by
  obtain ⟨rest, name⟩ := dot
  obtain ⟨_, suffix, caseName⟩ := isCase
  rw [name, caseName, idEntry]
  exact notAfter_cons.mpr (.inl (by decide))

theorem QueueFile.Hidden.not_isCase {file : QueueFile}
    (hidden : file.Hidden) (id : Nat) : ¬file.IsCase id := by
  rintro ⟨_, suffix, caseName⟩
  obtain ⟨rest, name⟩ := hidden
  rw [name, idEntry] at caseName
  exact absurd (List.cons.inj caseName).1 (by decide)

namespace QueueFile.IsCase

variable {file : QueueFile} {id : Nat}

theorem startsLike_iff (isCase : file.IsCase id) {next : Nat}
    (small : next < 1000000) :
    startsLike file.dName (idEntry next) = true ↔ id = next := by
  obtain ⟨idSmall, rest, name⟩ := isCase
  have entry : (idEntry next).take 9 = idEntry next := by
    simpa using idEntry_take small []
  rw [startsLike, decide_eq_true_iff, name, idEntry_take idSmall, entry]
  exact ⟨idEntry_injective idSmall small, congrArg idEntry⟩

-- After a million cases the seventh digit is not compared any more.
example : startsLike (idEntry 100000) (idEntry 1000000) = true := by decide

theorem unique (isCase : file.IsCase id) {other : Nat}
    (isOther : file.IsCase other) : id = other :=
  (isCase.startsLike_iff isOther.1).mp
    ((isOther.startsLike_iff isOther.1).mpr rfl)

end QueueFile.IsCase

theorem QueueFile.Hidden.not_startsLike {file : QueueFile}
    (hidden : file.Hidden) (next : Nat) :
    startsLike file.dName (idEntry next) = false := by
  obtain ⟨rest, name⟩ := hidden
  rw [startsLike, decide_eq_false_iff_not, name, idEntry]
  intro same
  have first := (List.cons.inj same).1
  exact absurd first (by decide)

/-- A queue directory with the cases 0, 1, 2, … in order and nothing else but
dot files. -/
structure CaseListing (directory cases : List QueueFile) : Prop where
  distinct : (directory.map QueueFile.dName).Nodup
  files : ∃ hidden, directory.Perm (hidden ++ cases) ∧ ∀ file ∈ hidden, file.Hidden
  isCase : ∀ id (inside : id < cases.length), (cases.get ⟨id, inside⟩).IsCase id

theorem alphasort_trans (first second third : QueueFile)
    (before : alphasort first second = true)
    (after : alphasort second third = true) :
    alphasort first third = true :=
  notAfter_trans before after

theorem alphasort_total (first second : QueueFile) :
    (alphasort first second || alphasort second first) = true :=
  Bool.or_eq_true_iff.mpr (notAfter_total first.dName second.dName)

namespace CaseListing

variable {directory cases : List QueueFile}

theorem scandir_eq (listing : CaseListing directory cases) :
    ∃ hidden, scandir directory = hidden ++ cases ∧ ∀ file ∈ hidden, file.Hidden := by
  obtain ⟨hidden, permutation, dots⟩ := listing.files
  refine ⟨hidden.mergeSort alphasort, ?_, fun file member =>
    dots file (List.mem_mergeSort.mp member)⟩
  have sortedHidden := List.pairwise_mergeSort alphasort_trans
    alphasort_total hidden
  have isCase : ∀ file ∈ cases, ∃ id, file.IsCase id := by
    intro file member
    obtain ⟨position, rfl⟩ := List.get_of_mem member
    exact ⟨position.1, listing.isCase position.1 position.2⟩
  have sortedCases : cases.Pairwise fun first second =>
      alphasort first second = true := by
    rw [List.pairwise_iff_getElem]
    intro first second inFirst inSecond less
    obtain ⟨_, firstRest, firstName⟩ := listing.isCase first inFirst
    obtain ⟨small, secondRest, secondName⟩ := listing.isCase second inSecond
    rw [List.get_eq_getElem] at firstName secondName
    rw [alphasort, firstName, secondName]
    exact idEntry_notAfter less small firstRest secondRest
  have sorted : (hidden.mergeSort alphasort ++ cases).Pairwise
      fun first second => alphasort first second = true := by
    refine List.pairwise_append.mpr ⟨sortedHidden, sortedCases, ?_⟩
    intro first inHidden second inCases
    obtain ⟨id, secondCase⟩ := isCase second inCases
    exact (dots first (List.mem_mergeSort.mp inHidden)).notAfter secondCase
  have same : (scandir directory).Perm (hidden.mergeSort alphasort ++ cases) :=
    (List.mergeSort_perm directory alphasort).trans
      (permutation.trans ((List.mergeSort_perm hidden alphasort).symm.append_right
        cases))
  refine same.eq_of_pairwise ?_ (List.pairwise_mergeSort alphasort_trans
    alphasort_total directory) sorted
  -- Two files of one directory that are in order both ways have one name.
  intro first second inFirst inSecond before after
  have inDirectory := List.mem_mergeSort.mp inFirst
  have alsoIn := List.mem_mergeSort.mp (same.mem_iff.mpr inSecond)
  exact List.inj_on_of_nodup_map listing.distinct inDirectory alsoIn
    (notAfter_antisymm before after)

theorem dropWhile_eq (listing : CaseListing directory cases) {next : Nat}
    (small : next < 1000000) (inside : next ≤ cases.length) :
    (scandir directory).dropWhile
        (fun file => !startsLike file.dName (idEntry next)) =
      cases.drop next := by
  obtain ⟨hidden, listed, dots⟩ := listing.scandir_eq
  rw [listed, List.dropWhile_append_of_pos]
  · have skipped : ∀ file ∈ cases.take next,
        (!startsLike file.dName (idEntry next)) = true := by
      intro file member
      obtain ⟨position, below, rfl⟩ := List.mem_take_iff_getElem.mp member
      have isCase := listing.isCase position (by omega)
      rw [Bool.not_eq_true', ← Bool.not_eq_true]
      intro matching
      have equal := (isCase.startsLike_iff small).mp matching
      omega
    conv_lhs => rw [← List.take_append_drop next cases]
    rw [List.dropWhile_append_of_pos skipped]
    cases rest : cases.drop next with
    | nil => rfl
    | cons file later =>
        have here : next < cases.length := by
          by_contra beyond
          rw [List.drop_eq_nil_of_le (by omega)] at rest
          exact absurd rest (by simp)
        have isNext := listing.isCase next here
        rw [List.drop_eq_getElem_cons here] at rest
        obtain ⟨rfl, rfl⟩ := List.cons.inj rest
        apply List.dropWhile_cons_of_neg
        rw [Bool.not_eq_true', Bool.not_eq_false]
        exact (isNext.startsLike_iff small).mpr rfl
  · intro file member
    rw [(dots file member).not_startsLike]
    rfl

end CaseListing

end AFLPlusPlus
