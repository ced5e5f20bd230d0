import AFLPlusPlus.Config
import AFLPlusPlus.Deterministic.Predicates
import AFLPlusPlus.Dictionary.ExtrasDuplicates
import AFLPlusPlus.Support.Stores
import Mathlib.Data.List.TakeWhile

/-!
# Automatic extras

`maybe_add_auto` counts a token that is found again, and stores one that is new,
unless it is a run of one byte, a value that the fuzzer knows by itself, or a
user's extra.  One of the values it knows gets past: `interesting_16` is signed,
the word it is compared with is not.
-/

namespace AFLPlusPlus.Dictionary

def toLower (c : BitVec 8) : BitVec 8 :=
  if 65#8 ≤ c ∧ c ≤ 90#8 then c + 32#8 else c

/-- Whether `memcmp_nocase` finds no difference. -/
def sameNocase (first second : Text) : Bool := first.map toLower = second.map toLower

variable {len : Nat} {extra first second : Text}

theorem sameNocase_iff :
    sameNocase first second = true ↔ first.map toLower = second.map toLower :=
  decide_eq_true_iff

theorem sameNocase_comm (first second : Text) :
    sameNocase first second = sameNocase second first :=
  decide_eq_decide.mpr ⟨Eq.symm, Eq.symm⟩

theorem length_of_sameNocase (same : sameNocase first second = true) :
    first.length = second.length := by
  have lengths := congrArg List.length (sameNocase_iff.mp same)
  rwa [List.length_map, List.length_map] at lengths

def identical : Text → Bool
  | [] => false
  | first :: rest => rest.all fun byte => first ^^^ byte = 0#8

/-- `*((u16 *)mem)` -/
def word16 (lo hi : BitVec 8) : BitVec 16 := hi ++ lo

/-- The loop over `interesting_16`, whose elements become an `int` as the word
does. -/
def builtin16 (word : BitVec 16) : Bool :=
  (interestingInts8 ++ interestingInts16).any fun value =>
    (word.toNat : Int) = value ∨ word = swap16 (BitVec.ofInt 16 value)

/-- The loop over `interesting_32`. -/
def builtin32 (word : BitVec 32) : Bool :=
  (interestingInts8 ++ interestingInts16 ++ interestingInts32).any
    fun value =>
      word = BitVec.ofInt 32 value ∨ word = swap32 (BitVec.ofInt 32 value)

def builtin : Text → Bool
  | [lo, hi] => builtin16 (word16 lo hi)
  | [b0, b1, b2, b3] => builtin32 (b3 ++ b2 ++ b1 ++ b0)
  | _ => false

def rejected (mem : Text) : Bool :=
  identical mem || decide (maxAutoExtra < mem.length) || builtin mem

/-- The two loops over the user's extras: the first passes the shorter ones,
the second ends behind those of the same length. -/
def matchesExtras (extras : List Text) (mem : Text) : Bool :=
  let rest := extras.dropWhile fun extra => extra.length < mem.length
  (rest.takeWhile fun extra => extra.length = mem.length).any fun extra =>
    sameNocase extra mem

variable {extras : List Text} {mem : Text}

theorem length_of_mem_dropWhile (sorted : SortedByLen extras)
    (mem : extra ∈ extras.dropWhile fun extra => extra.length < len) :
    len ≤ extra.length := by
  induction extras with
  | nil => cases mem
  | cons first rest induction =>
      have order := List.pairwise_cons.mp sorted
      by_cases shorter : first.length < len
      · rw [List.dropWhile_cons_of_pos (by simpa using shorter)] at mem
        exact induction order.2 mem
      · rw [List.dropWhile_cons_of_neg (by simpa using shorter)] at mem
        have enough := Nat.not_lt.mp shorter
        rcases List.mem_cons.mp mem with rfl | behind
        · exact enough
        · exact Nat.le_trans enough (order.1 extra behind)

theorem mem_takeWhile_of_length (sorted : SortedByLen extras)
    (long : ∀ extra ∈ extras, len ≤ extra.length) (mem : extra ∈ extras)
    (length : extra.length = len) :
    extra ∈ extras.takeWhile fun extra => extra.length = len := by
  induction extras with
  | nil => cases mem
  | cons first rest induction =>
      obtain ⟨order, sortedRest⟩ := List.pairwise_cons.mp sorted
      rw [List.forall_mem_cons] at long
      rcases List.mem_cons.mp mem with rfl | behind
      · rw [List.takeWhile_cons_of_pos (by simpa using length)]
        exact List.mem_cons_self
      · have same : first.length = len :=
          Nat.le_antisymm (length ▸ order extra behind) long.1
        rw [List.takeWhile_cons_of_pos (by simpa using same)]
        exact List.mem_cons_of_mem _ (induction sortedRest long.2 behind)

theorem matchesExtras_iff (sorted : SortedByLen extras) (mem : Text) :
    matchesExtras extras mem = true ↔
      ∃ extra ∈ extras, sameNocase extra mem = true := by
  rw [matchesExtras, List.any_eq_true]
  constructor
  · rintro ⟨extra, taken, same⟩
    exact ⟨extra, (List.dropWhile_suffix _).subset
      ((List.takeWhile_prefix _).subset taken), same⟩
  · rintro ⟨extra, known, same⟩
    refine ⟨extra, ?_, same⟩
    have length := length_of_sameNocase same
    refine mem_takeWhile_of_length
      (sorted.sublist (List.dropWhile_suffix _).sublist)
      (fun _ => length_of_mem_dropWhile sorted) ?_ length
    rw [← @List.takeWhile_append_dropWhile _
      (fun extra => decide (extra.length < mem.length)) extras] at known
    refine (List.mem_append.mp known).resolve_left fun passed => ?_
    have taken := List.mem_takeWhile_imp passed
    have shorter := of_decide_eq_true taken
    exact Nat.lt_irrefl _ (length ▸ shorter)

/-- `struct auto_extra_data`, with the first `len` bytes of the data. -/
structure AutoExtraData where
  data : Text
  fits : data.length ≤ maxAutoExtra
  hitCnt : BitVec 32
  deriving DecidableEq

/-- `a_extras`, of which the first `a_extras_cnt` are in use. -/
structure AutoExtras where
  aExtras : List AutoExtraData
  aExtrasCnt : Nat
  autoChanged : Bool

/-- A call of `maybe_add_auto`: the user's extras at that time, which are sorted
by length, the token, and what `rand_below` would return. -/
structure AutoCall where
  extras : List Text
  sorted : SortedByLen extras
  mem : Text
  random : Fin ((maxAutoExtras + 1) / 2)

/-- Descending order, as the difference of two `u32` becomes an `int`. -/
def compareAutoExtrasUseD (ae1 ae2 : AutoExtraData) : Int :=
  (ae2.hitCnt - ae1.hitCnt).toInt

def compareAutoExtrasLen (ae1 ae2 : AutoExtraData) : Int :=
  (BitVec.ofNat 32 ae1.data.length - BitVec.ofNat 32 ae2.data.length).toInt

namespace AutoExtras

def start : AutoExtras where
  aExtras := List.replicate maxAutoExtras ⟨[], Nat.zero_le _, 0#32⟩
  aExtrasCnt := 0
  autoChanged := false

def live (state : AutoExtras) : List AutoExtraData :=
  state.aExtras.take state.aExtrasCnt

def find (state : AutoExtras) (mem : Text) : Option Nat :=
  state.live.findIdx? fun entry =>
    entry.data.length = mem.length && sameNocase entry.data mem

def bump (entry : AutoExtraData) : AutoExtraData :=
  { entry with hitCnt := entry.hitCnt + 1#32 }

/-- A token is hit, appended, or stored in place of an entry of the lower
half. -/
def touch (state : AutoExtras) (mem : Text) (fits : mem.length ≤ maxAutoExtra)
    (random : Nat) : AutoExtras :=
  match state.find mem with
  | some i => { state with aExtras := state.aExtras.modify i bump }
  | none =>
      if state.aExtrasCnt < maxAutoExtras then
        { state with
          aExtras := state.aExtras.modify state.aExtrasCnt fun unused =>
            ⟨mem, fits, unused.hitCnt⟩
          aExtrasCnt := state.aExtrasCnt + 1 }
      else
        { state with
          aExtras := state.aExtras.modify (maxAutoExtras / 2 + random)
            fun _ => ⟨mem, fits, 0#32⟩ }

variable (qsort : (AutoExtraData → AutoExtraData → Int) →
  List AutoExtraData → List AutoExtraData)

/-- `sort_a_extras`: all entries by use count, then the top ones by size. -/
def sortAExtras (state : AutoExtras) : AutoExtras :=
  let byUse := qsort compareAutoExtrasUseD state.live ++
    state.aExtras.drop state.aExtrasCnt
  let top := min useAutoExtras state.aExtrasCnt
  { state with
    aExtras := qsort compareAutoExtrasLen (byUse.take top) ++ byUse.drop top }

def maybeAddAuto (call : AutoCall) (state : AutoExtras) : AutoExtras :=
  if rejected call.mem then state
  else if matchesExtras call.extras call.mem then state
  else if fits : call.mem.length ≤ maxAutoExtra then
    ({ state with autoChanged := true }.touch call.mem fits
      call.random).sortAExtras qsort
  else state

/-- The array has its size, and no more entries are in use than it has. -/
structure WellFormed (state : AutoExtras) : Prop where
  size : state.aExtras.length = maxAutoExtras
  bounded : state.aExtrasCnt ≤ maxAutoExtras

theorem wellFormed_start : start.WellFormed where
  size := List.length_replicate
  bounded := Nat.zero_le _

/-- No entry in use is the token. -/
def Absent (entries : List AutoExtraData) (mem : Text) : Prop :=
  ∀ entry ∈ entries, sameNocase entry.data mem = false

/-- The entries before and after a token is touched. -/
inductive Touches (unused : List AutoExtraData) (mem : Text) :
    List AutoExtraData → List AutoExtraData → Prop where
  | hit {before behind : List AutoExtraData} {entry : AutoExtraData}
      (same : sameNocase entry.data mem = true) :
      Touches unused mem (before ++ entry :: behind)
        (before ++ bump entry :: behind)
  | appended {entries : List AutoExtraData} {new slot : AutoExtraData}
      (absent : Absent entries mem) (data : new.data = mem)
      (room : entries.length < maxAutoExtras)
      (first : slot ∈ unused) (hits : new.hitCnt = slot.hitCnt) :
      Touches unused mem entries (entries ++ [new])
  | evicted {before behind : List AutoExtraData} {old new : AutoExtraData}
      (absent : Absent (before ++ old :: behind) mem) (data : new.data = mem)
      (full : (before ++ old :: behind).length = maxAutoExtras)
      (hits : new.hitCnt = 0#32) :
      Touches unused mem (before ++ old :: behind)
        (before ++ new :: behind)

variable {state : AutoExtras}

theorem WellFormed.length_live (wellFormed : state.WellFormed) :
    state.live.length = state.aExtrasCnt :=
  List.length_take_of_le (by
    rw [wellFormed.size]
    exact wellFormed.bounded)

theorem live_modify {extras : List AutoExtraData} {cnt i : Nat}
    (used : i < cnt) (inside : cnt ≤ extras.length)
    (change : AutoExtraData → AutoExtraData) :
    ∃ before entry behind, extras.take cnt = before ++ entry :: behind ∧
      before.length = i ∧
      (extras.modify i change).take cnt = before ++ change entry :: behind := by
  rw [List.take_modify]
  exact List.exists_of_modify change (by rwa [List.length_take_of_le inside])

/-- A touched token is in the list, and the array keeps its size. -/
theorem WellFormed.touch (wellFormed : state.WellFormed)
    (fits : mem.length ≤ maxAutoExtra) (random : Fin ((maxAutoExtras + 1) / 2)) :
    (state.touch mem fits random).WellFormed ∧
      Touches (state.aExtras.drop state.aExtrasCnt) mem state.live
        (state.touch mem fits random).live ∧
      (state.touch mem fits random).aExtras.drop
          (state.touch mem fits random).aExtrasCnt ⊆
        state.aExtras.drop state.aExtrasCnt := by
  obtain ⟨size, bounded⟩ := wellFormed
  have inside : state.aExtrasCnt ≤ state.aExtras.length := by
    rw [size]
    exact bounded
  have length := WellFormed.length_live ⟨size, bounded⟩
  unfold AutoExtras.touch
  cases found : state.find mem with
  | some i =>
      obtain ⟨used, isHit, _⟩ := List.findIdx?_eq_some_iff_getElem.mp found
      rw [Bool.and_eq_true] at isHit
      obtain ⟨before, entry, behind, split, index, changed⟩ :=
        live_modify (length ▸ used) inside bump
      have here : state.live[i] = entry := by
        have found : state.live[i]? = some entry := by
          rw [live, split, ← index, List.getElem?_append_right (Nat.le_refl _),
            Nat.sub_self]
          rfl
        exact Option.some.inj ((List.getElem?_eq_getElem used).symm.trans found)
      rw [here] at isHit
      refine ⟨⟨(List.length_modify _ _ _).trans size, bounded⟩, ?_, ?_⟩
      · simp only [live, changed]
        rw [split]
        exact .hit isHit.2
      · simp only
        rw [List.drop_modify_of_lt _ _ _ _ (length ▸ used)]
        exact List.Subset.refl _
  | none =>
      have absent : Absent state.live mem := by
        intro entry mem'
        have other := List.findIdx?_eq_none_iff.mp found entry mem'
        rw [Bool.and_eq_false_iff] at other
        rcases other with different | other
        · refine Bool.eq_false_iff.mpr fun same => ?_
          exact of_decide_eq_false different (length_of_sameNocase same)
        · exact other
      simp only
      by_cases room : state.aExtrasCnt < maxAutoExtras
      · have slot : state.aExtrasCnt < state.aExtras.length := by
          rw [size]
          exact room
        have grown : ∀ change : AutoExtraData → AutoExtraData,
            (state.aExtras.modify state.aExtrasCnt change).take
                (state.aExtrasCnt + 1) =
              state.live ++ [change state.aExtras[state.aExtrasCnt]] := by
          intro change
          rw [List.take_succ_eq_append_getElem
            (by rwa [List.length_modify]), List.getElem_modify_eq,
            List.take_modify,
            List.modify_eq_self (by rw [List.length_take]; omega)]
          rfl
        have first : state.aExtras[state.aExtrasCnt] ∈
            state.aExtras.drop state.aExtrasCnt := by
          rw [List.drop_eq_getElem_cons slot]
          exact List.mem_cons_self
        rw [if_pos room]
        refine ⟨⟨(List.length_modify _ _ _).trans size, room⟩, ?_, ?_⟩
        · simp only [live]
          rw [grown]
          exact .appended absent rfl
            (Nat.lt_of_le_of_lt (Nat.le_of_eq length) room) first rfl
        · simp only
          rw [List.drop_modify_of_lt _ _ _ _ (Nat.lt_succ_self _)]
          exact List.drop_subset_drop_left _ (Nat.le_succ _)
      · have full : state.aExtrasCnt = maxAutoExtras :=
          Nat.le_antisymm bounded (Nat.not_lt.mp room)
        have used : maxAutoExtras / 2 + random < state.aExtrasCnt := by
          have below := random.isLt
          have value : maxAutoExtras = 8192 := rfl
          omega
        obtain ⟨before, entry, behind, split, _, changed⟩ :=
          live_modify used inside fun _ => ⟨mem, fits, 0#32⟩
        have all : state.live = before ++ entry :: behind := split
        rw [if_neg room]
        refine ⟨⟨(List.length_modify _ _ _).trans size, bounded⟩, ?_, ?_⟩
        · simp only [live, changed]
          rw [split]
          rw [all] at absent length
          exact .evicted absent rfl (length.trans full) rfl
        · simp only
          rw [List.drop_modify_of_lt _ _ _ _ used]
          exact List.Subset.refl _

variable {qsort}

/-- The list is only permuted at the end of a call. -/
theorem live_sortAExtras (permutes : Qsort.Permutes qsort)
    (wellFormed : state.WellFormed) :
    (state.sortAExtras qsort).WellFormed ∧
      (state.sortAExtras qsort).live.Perm state.live ∧
      (state.sortAExtras qsort).aExtras.drop state.aExtrasCnt =
        state.aExtras.drop state.aExtrasCnt ∧
      (state.sortAExtras qsort).live =
        qsort compareAutoExtrasLen
            ((qsort compareAutoExtrasUseD state.live).take useAutoExtras) ++
          (qsort compareAutoExtrasUseD state.live).drop useAutoExtras := by
  have byUse := permutes compareAutoExtrasUseD state.live
  have count := byUse.length_eq.trans wellFormed.length_live
  have array : (state.sortAExtras qsort).aExtras =
      qsort compareAutoExtrasLen
          ((qsort compareAutoExtrasUseD state.live ++
            state.aExtras.drop state.aExtrasCnt).take
              (min useAutoExtras state.aExtrasCnt)) ++
        (qsort compareAutoExtrasUseD state.live ++
          state.aExtras.drop state.aExtrasCnt).drop
            (min useAutoExtras state.aExtrasCnt) := rfl
  generalize qsort compareAutoExtrasUseD state.live = entries
    at byUse count array ⊢
  have top : min useAutoExtras state.aExtrasCnt ≤ entries.length := by
    rw [count]
    exact Nat.min_le_right _ _
  rw [List.take_append_of_le_length top, List.drop_append_of_le_length top,
    ← count, ← List.take_eq_take_min, ← List.drop_eq_drop_min, count,
    ← List.append_assoc] at array
  have perm : (qsort compareAutoExtrasLen (entries.take useAutoExtras) ++
      entries.drop useAutoExtras).Perm entries := by
    have parts := (permutes compareAutoExtrasLen
      (entries.take useAutoExtras)).append_right (entries.drop useAutoExtras)
    rwa [List.take_append_drop] at parts
  have total := perm.length_eq.trans count
  have live : (state.sortAExtras qsort).live =
      qsort compareAutoExtrasLen (entries.take useAutoExtras) ++
        entries.drop useAutoExtras := by
    have counted : (state.sortAExtras qsort).aExtrasCnt = state.aExtrasCnt := rfl
    rw [AutoExtras.live, array, counted, ← total, List.take_left]
  have unused : (state.sortAExtras qsort).aExtras.drop state.aExtrasCnt =
      state.aExtras.drop state.aExtrasCnt := by
    rw [array, ← total, List.drop_left]
  refine ⟨⟨?_, wellFormed.bounded⟩, ?_, unused, live⟩
  · have size := wellFormed.size
    have bounded := wellFormed.bounded
    rw [array, List.length_append, total, List.length_drop, size]
    omega
  · rw [live]
    exact perm.trans byUse

/-- A call does nothing, or touches the token and sorts. -/
theorem maybeAddAuto_cases (call : AutoCall) (wellFormed : state.WellFormed) :
    (state.maybeAddAuto qsort call = state ∧
      (rejected call.mem = true ∨ matchesExtras call.extras call.mem = true)) ∨
    (rejected call.mem = false ∧ matchesExtras call.extras call.mem = false) ∧
    ∃ touched : AutoExtras, touched.WellFormed ∧
      Touches (state.aExtras.drop state.aExtrasCnt) call.mem state.live
        touched.live ∧
      touched.aExtras.drop touched.aExtrasCnt ⊆
        state.aExtras.drop state.aExtrasCnt ∧
      state.maybeAddAuto qsort call = touched.sortAExtras qsort := by
  rw [maybeAddAuto]
  by_cases reject : rejected call.mem = true
  · exact .inl ⟨if_pos reject, .inl reject⟩
  rw [if_neg reject]
  by_cases user : matchesExtras call.extras call.mem = true
  · exact .inl ⟨if_pos user, .inr user⟩
  rw [if_neg user]
  have fits : call.mem.length ≤ maxAutoExtra := by
    rw [rejected, Bool.or_eq_true, Bool.or_eq_true, not_or, not_or] at reject
    exact Nat.not_lt.mp fun long => reject.1.2 (decide_eq_true long)
  rw [dif_pos fits]
  have started : ({ state with autoChanged := true } :
      AutoExtras).WellFormed := ⟨wellFormed.size, wellFormed.bounded⟩
  obtain ⟨touchedFormed, touches, unused⟩ := started.touch fits call.random
  exact .inr ⟨⟨Bool.eq_false_iff.mpr reject, Bool.eq_false_iff.mpr user⟩, _,
    touchedFormed, touches, unused, rfl⟩

theorem eq_of_replaced {before behind : List AutoExtraData}
    {old new : AutoExtraData}
    (perm : (before ++ new :: behind).Perm (before ++ old :: behind)) :
    new = old := by
  have tails := (List.perm_append_left_iff before).mp perm
  have heads : ([new] ++ behind).Perm ([old] ++ behind) := tails
  exact List.singleton_perm_singleton.mp
    ((List.perm_append_right_iff behind).mp heads)

theorem Touches.not_perm {unused entries after : List AutoExtraData}
    (touches : Touches unused mem entries after) :
    ¬after.Perm entries := by
  intro perm
  cases touches with
  | @hit _ _ entry _ =>
      have hits := congrArg AutoExtraData.hitCnt (eq_of_replaced perm)
      have more : entry.hitCnt + 1#32 ≠ entry.hitCnt := by bv_omega
      exact more hits
  | appended =>
      have length := perm.length_eq
      rw [List.length_append, List.length_singleton] at length
      exact Nat.succ_ne_self _ length
  | @evicted before behind old new absent data =>
      obtain rfl := eq_of_replaced perm
      have other := absent new
        (List.mem_append_right _ List.mem_cons_self)
      rw [data] at other
      exact Bool.false_ne_true (other.symm.trans (sameNocase_iff.mpr rfl))

theorem live_perm_iff (permutes : Qsort.Permutes qsort) (call : AutoCall)
    (wellFormed : state.WellFormed) :
    (state.maybeAddAuto qsort call).live.Perm state.live ↔
      rejected call.mem = true ∨
        ∃ extra ∈ call.extras, sameNocase extra call.mem = true := by
  rw [← matchesExtras_iff call.sorted]
  rcases maybeAddAuto_cases call wellFormed with
    ⟨same, passed⟩ | ⟨⟨accepted, new⟩, touched, formed, touches, _, result⟩
  · rw [same]
    exact iff_of_true (.refl _) passed
  · rw [result, accepted, new]
    have sorted := (live_sortAExtras permutes formed).2.1
    exact iff_of_false (fun perm =>
      touches.not_perm (sorted.symm.trans perm)) (by decide)

end AutoExtras

/-- The tokens that equal an element of `interesting_16` or `interesting_32`, in
either byte order. -/
def Interesting (mem : Text) : Prop :=
  (∃ value ∈ interestingInts8 ++ interestingInts16,
    let bytes := Buffer.wordBytes 2 (BitVec.ofInt 16 value)
    mem = bytes ∨ mem = bytes.reverse) ∨
  ∃ value ∈ interestingInts8 ++ interestingInts16 ++ interestingInts32,
    let bytes := Buffer.wordBytes 4 (BitVec.ofInt 32 value)
    mem = bytes ∨ mem = bytes.reverse

def minus128 : Text := [128#8, 255#8]

theorem rejected_interesting (interesting : Interesting mem) :
    rejected mem = true ↔ mem ≠ minus128 := by
  have narrow : ∀ value ∈ interestingInts8 ++ interestingInts16,
      ∀ mem ∈ [Buffer.wordBytes 2 (BitVec.ofInt 16 value),
        (Buffer.wordBytes 2 (BitVec.ofInt 16 value)).reverse],
        rejected mem = true ↔ mem ≠ minus128 := by decide
  have wide : ∀ value ∈ interestingInts8 ++ interestingInts16 ++ interestingInts32,
      ∀ mem ∈ [Buffer.wordBytes 4 (BitVec.ofInt 32 value),
        (Buffer.wordBytes 4 (BitVec.ofInt 32 value)).reverse],
        rejected mem = true ↔ mem ≠ minus128 := by decide
  rcases interesting with ⟨value, known, order⟩ | ⟨value, known, order⟩
  · exact narrow value known mem (by simpa using order)
  · exact wide value known mem (by simpa using order)

namespace AutoExtras

variable {state : AutoExtras} {qsort : (AutoExtraData → AutoExtraData → Int) →
  List AutoExtraData → List AutoExtraData}

/-- A builtin value leaves the list as it is, unless it is -128 as it stands in
memory and no extra of the user. -/
theorem interesting_kept_iff (permutes : Qsort.Permutes qsort)
    (call : AutoCall) (wellFormed : state.WellFormed)
    (interesting : Interesting call.mem) :
    (state.maybeAddAuto qsort call).live.Perm state.live ↔
      call.mem ≠ minus128 ∨
        ∃ extra ∈ call.extras, sameNocase extra call.mem = true := by
  rw [live_perm_iff permutes call wellFormed, rejected_interesting interesting]

/-- A call with the bytes of a value and no extras. -/
def callOf (mem : Text) : AutoCall where
  extras := []
  sorted := .nil
  mem := mem
  random := ⟨0, by decide⟩

theorem interesting_kept_iff_case :
    (start.maybeAddAuto Qsort.insertionSort
      (callOf [255#8, 128#8])).live.Perm start.live :=
  (interesting_kept_iff Qsort.insertionSort_perm (callOf [255#8, 128#8])
    wellFormed_start (.inl ⟨-128, by decide, .inr (by decide)⟩)).mpr
    (.inl (by decide))

/-- The value -128 is stored. -/
theorem interesting_added :
    ∃ value ∈ interestingInts8 ++ interestingInts16,
      minus128 = Buffer.wordBytes 2 (BitVec.ofInt 16 value) ∧
      ¬(start.maybeAddAuto Qsort.insertionSort
        (callOf minus128)).live.Perm start.live := by
  refine ⟨-128, by decide, by decide, ?_⟩
  rw [live_perm_iff Qsort.insertionSort_perm (callOf minus128) wellFormed_start]
  rintro (reject | ⟨extra, mem, _⟩)
  · exact absurd reject (by decide)
  · cases mem

end AutoExtras

end AFLPlusPlus.Dictionary
