import AFLPlusPlus.Dictionary.AutoExtras
import AFLPlusPlus.Support.Transitions

/-!
# Automatic extras over whole runs

The list has no token twice, and its top is sorted by size and holds what is
used most, as long as the counters stay close enough together for their
differences to be compared.
-/

namespace AFLPlusPlus.Dictionary

variable {contents : List (Text × BitVec 32)} {Item : Type}

namespace AutoExtras

/-- No two tokens are the same up to letter case. -/
def Distinct (entries : List AutoExtraData) : Prop :=
  entries.Pairwise fun a b => sameNocase a.data b.data = false

/-- The top of the list is sorted by size, and no entry behind it has more
hits. -/
structure Ordered (entries : List AutoExtraData) : Prop where
  bySize : (entries.take useAutoExtras).Pairwise
    fun a b => a.data.length ≤ b.data.length
  byUse : ∀ a ∈ entries.take useAutoExtras,
    ∀ b ∈ entries.drop useAutoExtras, b.hitCnt.toNat ≤ a.hitCnt.toNat

/-- Two counters of which the difference fits into an `int`. -/
def Comparable (first second : BitVec 32) : Prop :=
  first.toNat < second.toNat + 2 ^ 31 ∧ second.toNat < first.toNat + 2 ^ 31

instance (first second : BitVec 32) : Decidable (Comparable first second) :=
  inferInstanceAs (Decidable (_ ∧ _))

variable {first second : BitVec 32} {related : Item → Item → Prop}
    {before behind : List Item} {token : Text}

theorem Comparable.symm (comparable : Comparable first second) : Comparable second first :=
  ⟨comparable.2, comparable.1⟩

/-- The counter that the entry of a token is left with. -/
def LeftWith (entries : List AutoExtraData) (mem : Text)
    (hits : BitVec 32) : Prop :=
  (∃ entry ∈ entries, sameNocase entry.data mem = true ∧ hits = entry.hitCnt + 1#32) ∨
    Absent entries mem ∧ hits = 0#32

/-- A token that is touched gets a counter that can be compared with those of
the other entries. -/
def HitsInRange (state : AutoExtras) (call : AutoCall) : Prop :=
  rejected call.mem = false → matchesExtras call.extras call.mem = false →
    ∀ hits, LeftWith state.live call.mem hits →
      ∀ other ∈ state.live, sameNocase other.data call.mem = false →
        Comparable other.hitCnt hits

/-- What holds between the calls. -/
structure Sound (state : AutoExtras) : Prop where
  formed : state.WellFormed
  unused : ∀ slot ∈ state.aExtras.drop state.aExtrasCnt, slot.hitCnt = 0#32
  distinct : Distinct state.live
  close : state.live.Pairwise fun a b => Comparable a.hitCnt b.hitCnt
  ordered : Ordered state.live

theorem sound_start : start.Sound where
  formed := wellFormed_start
  unused := fun slot mem => by
    rw [List.eq_of_mem_replicate (List.mem_of_mem_drop mem)]
  distinct := .nil
  close := .nil
  ordered := ⟨.nil, fun _ mem => nomatch mem⟩

theorem sameNocase_trans {first second third : Text}
    (left : sameNocase first second = true)
    (right : sameNocase second third = true) :
    sameNocase first third = true :=
  sameNocase_iff.mpr
    ((sameNocase_iff.mp left).trans (sameNocase_iff.mp right))

theorem mem_of_others {other : Item} (item : Item) (member : other ∈ before ++ behind) :
    other ∈ before ++ item :: behind :=
  (List.Sublist.append_left (List.sublist_cons_self _ _) _).subset member

/-- A replaced item is related to the others. -/
theorem pairwise_replaced (symmetric : ∀ {a b}, related a b → related b a) {old : Item}
    (new : Item) (pairwise : (before ++ old :: behind).Pairwise related)
    (others : ∀ other ∈ before ++ behind, related new other) :
    (before ++ new :: behind).Pairwise related := by
  have kept : (before ++ behind).Pairwise related :=
    pairwise.sublist (List.Sublist.append_left (List.sublist_cons_self _ _) _)
  rw [List.Perm.pairwise_iff symmetric List.perm_middle]
  exact List.pairwise_cons.mpr ⟨others, kept⟩

theorem pairwise_appended (symmetric : ∀ {a b}, related a b → related b a)
    {items : List Item} (new : Item) (pairwise : items.Pairwise related)
    (others : ∀ other ∈ items, related new other) :
    (items ++ [new]).Pairwise related :=
  List.pairwise_append.mpr ⟨pairwise, List.pairwise_singleton _ _,
    fun other mem _ same => List.mem_singleton.mp same ▸
      symmetric (others other mem)⟩

variable {unused entries after : List AutoExtraData} {mem : Text}

/-- The others do not have the token of an entry. -/
theorem others_of_distinct {before behind : List AutoExtraData}
    {entry : AutoExtraData} (distinct : Distinct (before ++ entry :: behind))
    (same : sameNocase entry.data mem = true) :
    ∀ other ∈ before ++ behind, sameNocase entry.data other.data = false ∧
      sameNocase other.data mem = false := by
  intro other member
  have pairwise := (List.Perm.pairwise_iff
    (fun {a b} other => (sameNocase_comm b.data a.data).trans other)
    List.perm_middle).mp distinct
  have differs := (List.pairwise_cons.mp pairwise).1 other member
  refine ⟨differs, Bool.eq_false_iff.mpr fun also => ?_⟩
  rw [sameNocase_trans same ((sameNocase_comm mem other.data).trans also)]
    at differs
  cases differs

theorem Touches.distinct (touches : Touches unused mem entries after)
    (distinct : Distinct entries) : Distinct after := by
  have symmetric : ∀ {a b : AutoExtraData},
      sameNocase a.data b.data = false → sameNocase b.data a.data = false :=
    fun {a b} other => (sameNocase_comm b.data a.data).trans other
  have newOther : ∀ {new other : AutoExtraData}, new.data = mem →
      sameNocase other.data mem = false →
      sameNocase new.data other.data = false := by
    intro new other data absent
    rw [data, sameNocase_comm]
    exact absent
  cases touches with
  | @hit before behind entry same =>
      exact pairwise_replaced symmetric (bump entry) distinct
        fun other member => (others_of_distinct distinct same other member).1
  | appended absent data =>
      exact pairwise_appended symmetric _ distinct
        fun other member => newOther data (absent other member)
  | evicted absent data =>
      refine pairwise_replaced symmetric _ distinct fun other member => ?_
      exact newOther data (absent other (mem_of_others _ member))

theorem Touches.close (touches : Touches unused mem entries after)
    (zero : ∀ slot ∈ unused, slot.hitCnt = 0#32)
    (distinct : Distinct entries)
    (close : entries.Pairwise fun a b => Comparable a.hitCnt b.hitCnt)
    (inRange : ∀ hits, LeftWith entries mem hits → ∀ other ∈ entries,
      sameNocase other.data mem = false → Comparable other.hitCnt hits) :
    after.Pairwise fun a b => Comparable a.hitCnt b.hitCnt := by
  cases touches with
  | @hit before behind entry same =>
      have left := inRange (entry.hitCnt + 1#32) (.inl ⟨entry,
        List.mem_append_right _ List.mem_cons_self, same, rfl⟩)
      refine pairwise_replaced Comparable.symm (bump entry) close
        fun other member => (left other (mem_of_others _ member) ?_).symm
      exact (others_of_distinct distinct same other member).2
  | appended absent data room first hits =>
      have left := inRange 0#32 (.inr ⟨absent, rfl⟩)
      refine pairwise_appended Comparable.symm _ close fun other member => ?_
      rw [hits, zero _ first]
      exact (left other member (absent other member)).symm
  | evicted absent data full hits =>
      have left := inRange 0#32 (.inr ⟨absent, rfl⟩)
      refine pairwise_replaced Comparable.symm _ close fun other member => ?_
      rw [hits]
      exact (left other (mem_of_others _ member)
        (absent other (mem_of_others _ member))).symm

theorem toInt_sub_of_comparable (comparable : Comparable first second) :
    (first - second).toInt = (first.toNat : Int) - second.toNat := by
  obtain ⟨above, below⟩ := comparable
  have bounded := first.isLt
  have boundedSecond := second.isLt
  rw [BitVec.toInt_eq_toNat_cond, BitVec.toNat_sub]
  split
  · omega
  · omega

variable {state : AutoExtras} {qsort : (AutoExtraData → AutoExtraData → Int) →
  List AutoExtraData → List AutoExtraData}

theorem compareAutoExtrasUseD_eq
    (close : entries.Pairwise fun a b => Comparable a.hitCnt b.hitCnt) :
    ∀ a ∈ entries, ∀ b ∈ entries, compareAutoExtrasUseD a b =
      -(a.hitCnt.toNat : Int) - -(b.hitCnt.toNat : Int) := by
  have all : ∀ a ∈ entries, ∀ b ∈ entries, Comparable b.hitCnt a.hitCnt := by
    intro a first b second
    have itself : ∀ a ∈ entries, Comparable a.hitCnt a.hitCnt :=
      fun a _ => ⟨by omega, by omega⟩
    exact List.Pairwise.forall_of_forall_of_flip itself close
      (close.imp Comparable.symm) second first
  intro a first b second
  rw [compareAutoExtrasUseD, toInt_sub_of_comparable (all a first b second)]
  omega

theorem compareAutoExtrasLen_eq (a b : AutoExtraData) :
    compareAutoExtrasLen a b = (a.data.length : Int) - b.data.length := by
  have shortFirst := a.fits
  have shortSecond := b.fits
  rw [maxAutoExtra] at shortFirst shortSecond
  exact @Extras.compareExtrasLen_eq ⟨0, a.data.length⟩ ⟨0, b.data.length⟩
    (by simp only; omega) (by simp only; omega)

/-- The top of a sorted list. -/
theorem top_sortAExtras (permutes : Qsort.Permutes qsort)
    (formed : state.WellFormed) :
    (state.sortAExtras qsort).live.take useAutoExtras =
        qsort compareAutoExtrasLen
          ((qsort compareAutoExtrasUseD state.live).take useAutoExtras) ∧
      (state.sortAExtras qsort).live.drop useAutoExtras =
        (qsort compareAutoExtrasUseD state.live).drop useAutoExtras := by
  rw [(live_sortAExtras permutes formed).2.2.2]
  generalize qsort compareAutoExtrasUseD state.live = sorted
  have length := (permutes compareAutoExtrasLen (sorted.take useAutoExtras)).length_eq
  rw [List.length_take] at length
  rcases Nat.le_total useAutoExtras sorted.length with long | short
  · rw [Nat.min_eq_left long] at length
    exact ⟨List.take_left' length, List.drop_left' length⟩
  · rw [Nat.min_eq_right short] at length
    rw [List.drop_of_length_le short, List.append_nil]
    exact ⟨List.take_of_length_le (by omega), List.drop_of_length_le (by omega)⟩

theorem ordered_sortAExtras (sorts : Qsort.Sorts qsort)
    (permutes : Qsort.Permutes qsort) (formed : state.WellFormed)
    (close : state.live.Pairwise fun a b => Comparable a.hitCnt b.hitCnt) :
    Ordered (state.sortAExtras qsort).live := by
  obtain ⟨top, rest⟩ := top_sortAExtras permutes formed
  have byUse := compareAutoExtrasUseD_eq close
  obtain ⟨perm, descending⟩ := sorts compareAutoExtrasUseD state.live
    (Qsort.consistent_of_difference _ byUse)
  generalize qsort compareAutoExtrasUseD state.live = sorted
    at top rest perm descending
  have bySize : Qsort.Consistent compareAutoExtrasLen
      (sorted.take useAutoExtras) :=
    Qsort.consistent_of_difference _ fun a _ b _ =>
      compareAutoExtrasLen_eq a b
  obtain ⟨topPerm, ascending⟩ := sorts compareAutoExtrasLen _ bySize
  constructor
  · rw [top]
    refine ascending.imp fun {a b} less => ?_
    rw [compareAutoExtrasLen_eq] at less
    omega
  · rw [top, rest]
    intro a first b second
    have front := topPerm.subset first
    rw [← List.take_append_drop useAutoExtras sorted,
      List.pairwise_append] at descending
    have less := descending.2.2 a front b second
    rw [byUse a (perm.subset (List.mem_of_mem_take front)) b
      (perm.subset (List.mem_of_mem_drop second))] at less
    omega

def step (qsort : (AutoExtraData → AutoExtraData → Int) →
    List AutoExtraData → List AutoExtraData) (call : AutoCall)
    (state : AutoExtras) : Option AutoExtras :=
  some (state.maybeAddAuto qsort call)

theorem Sound.maybeAddAuto (sorts : Qsort.Sorts qsort)
    (permutes : Qsort.Permutes qsort) (sound : state.Sound) {call : AutoCall}
    (inRange : state.HitsInRange call) :
    (state.maybeAddAuto qsort call).Sound := by
  obtain ⟨formed, unused, distinct, close, ordered⟩ := sound
  rcases maybeAddAuto_cases call formed with
    ⟨same, _⟩ | ⟨⟨accepted, new⟩, touched, touchedFormed, touches, fewer, result⟩
  · rw [same]
    exact ⟨formed, unused, distinct, close, ordered⟩
  rw [result]
  have touchedClose := touches.close unused distinct close (inRange accepted new)
  obtain ⟨sortedFormed, perm, rest, _⟩ := live_sortAExtras permutes touchedFormed
  refine
    { formed := sortedFormed
      unused := ?_
      distinct := ?_
      close := ?_
      ordered := ordered_sortAExtras sorts permutes touchedFormed touchedClose }
  · have count : (touched.sortAExtras qsort).aExtrasCnt = touched.aExtrasCnt := rfl
    rw [count, rest]
    exact fun slot mem => unused slot (fewer mem)
  · refine (List.Perm.pairwise_iff (fun {a b} other =>
      (sameNocase_comm b.data a.data).trans other) perm).mpr ?_
    exact touches.distinct distinct
  · exact (List.Perm.pairwise_iff Comparable.symm perm).mpr touchedClose

/-- What a call adds is its token, which no extra of the user equals. -/
theorem added_of_maybeAddAuto (permutes : Qsort.Permutes qsort)
    (formed : state.WellFormed) (call : AutoCall) :
    ∀ entry ∈ (state.maybeAddAuto qsort call).live,
      (∃ old ∈ state.live, old.data = entry.data) ∨
        entry.data = call.mem ∧
          ∀ extra ∈ call.extras, sameNocase extra entry.data = false := by
  rcases maybeAddAuto_cases call formed with
    ⟨same, _⟩ | ⟨⟨accepted, new⟩, touched, touchedFormed, touches, _, result⟩
  · rw [same]
    exact fun entry mem => .inl ⟨entry, mem, rfl⟩
  rw [result]
  have absent : ∀ extra ∈ call.extras, sameNocase extra call.mem = false := by
    intro extra known
    refine Bool.eq_false_iff.mpr fun same => ?_
    rw [(matchesExtras_iff call.sorted call.mem).mpr ⟨extra, known, same⟩]
      at new
    cases new
  intro entry mem
  have there := (live_sortAExtras permutes touchedFormed).2.1.subset mem
  generalize state.live = before at touches
  generalize touched.live = after at touches there
  have others : ∀ {first behind : List AutoExtraData} {old new},
      entry ∈ first ++ new :: behind →
      (entry = new ∨ ∃ same ∈ first ++ old :: behind, same.data = entry.data) := by
    intro first behind old new mem
    rw [List.mem_append, List.mem_cons] at mem
    rcases mem with front | here | back
    · exact .inr ⟨entry, List.mem_append_left _ front, rfl⟩
    · exact .inl here
    · exact .inr ⟨entry, List.mem_append_right _ (List.mem_cons_of_mem _ back), rfl⟩
  cases touches with
  | @hit first behind old same =>
      rcases others there with rfl | known
      · exact .inl ⟨old, List.mem_append_right _ List.mem_cons_self, rfl⟩
      · exact .inl known
  | appended _ data =>
      rcases List.mem_append.mp there with known | here
      · exact .inl ⟨entry, known, rfl⟩
      · obtain rfl := List.mem_singleton.mp here
        exact .inr ⟨data, data ▸ absent⟩
  | evicted _ data =>
      rcases others there with rfl | known
      · exact .inr ⟨data, data ▸ absent⟩
      · exact .inl known

theorem Sound.run (sorts : Qsort.Sorts qsort)
    (permutes : Qsort.Permutes qsort) {calls : List AutoCall}
    {reached : AutoExtras}
    (inRange : MovesMeet (step qsort) HitsInRange calls start)
    (runs : runMoves (step qsort) calls start = some reached) :
    reached.Sound := by
  refine runMoves_invariant_of_meets Sound ?_ sound_start inRange runs
  intro call state next sound meets stepped
  obtain rfl := Option.some.inj stepped
  exact sound.maybeAddAuto sorts permutes meets

/-- In every run in which the counters stay close together the tokens are
pairwise different, there is room for all of them, the top is in order, and
what is added has not been an extra of the user. -/
theorem autoExtras_invariant (sorts : Qsort.Sorts qsort)
    (permutes : Qsort.Permutes qsort) {calls : List AutoCall}
    {reached : AutoExtras}
    (inRange : MovesMeet (step qsort) HitsInRange calls start)
    (runs : runMoves (step qsort) calls start = some reached) :
    Distinct reached.live ∧ reached.live.length = reached.aExtrasCnt ∧
      reached.aExtrasCnt ≤ maxAutoExtras ∧ Ordered reached.live ∧
      ∀ call : AutoCall, ∀ entry ∈ (reached.maybeAddAuto qsort call).live,
        (∃ old ∈ reached.live, old.data = entry.data) ∨
          entry.data = call.mem ∧
            ∀ extra ∈ call.extras, sameNocase extra entry.data = false := by
  have sound := Sound.run sorts permutes inRange runs
  exact ⟨sound.distinct, sound.formed.length_live, sound.formed.bounded,
    sound.ordered, added_of_maybeAddAuto permutes sound.formed⟩

theorem autoExtras_invariant_case :
    Ordered (start.maybeAddAuto Qsort.insertionSort (callOf [65#8, 66#8])).live := by
  have inRange : MovesMeet (step Qsort.insertionSort) HitsInRange
      [callOf [65#8, 66#8]] start :=
    ⟨fun _ _ _ _ _ mem => (nomatch mem), fun _ _ => trivial⟩
  exact (autoExtras_invariant Qsort.insertionSort_sorts
    Qsort.insertionSort_perm inRange rfl).2.2.2.1

/-- What the entries hold, in some order. -/
def Holds (state : AutoExtras) (contents : List (Text × BitVec 32)) : Prop :=
  state.WellFormed ∧
    (∀ slot ∈ state.aExtras.drop state.aExtrasCnt, slot.hitCnt = 0#32) ∧
    (state.live.map fun entry => (entry.data, entry.hitCnt)).Perm contents

theorem holds_sortAExtras (permutes : Qsort.Permutes qsort)
    (holds : state.Holds contents) :
    (state.sortAExtras qsort).Holds contents := by
  obtain ⟨formed, unused, perm⟩ := holds
  obtain ⟨sortedFormed, moved, rest, _⟩ := live_sortAExtras permutes formed
  have count : (state.sortAExtras qsort).aExtrasCnt = state.aExtrasCnt := rfl
  refine ⟨sortedFormed, ?_, (moved.map _).trans perm⟩
  rw [count, rest]
  exact unused

/-- A new token is appended while there is room. -/
theorem touched_append (holds : state.Holds contents) (call : AutoCall)
    (accepted : rejected call.mem = false) (noExtras : call.extras = [])
    (absent : ∀ pair ∈ contents, sameNocase pair.1 call.mem = false)
    (room : contents.length < maxAutoExtras) :
    ∃ touched : AutoExtras,
      state.maybeAddAuto qsort call = touched.sortAExtras qsort ∧
        touched.Holds (contents ++ [(call.mem, 0#32)]) := by
  obtain ⟨formed, unused, perm⟩ := holds
  have length := perm.length_eq
  rw [List.length_map] at length
  have absentLive : Absent state.live call.mem := fun entry mem =>
    absent _ (perm.subset (List.mem_map_of_mem mem))
  rcases maybeAddAuto_cases call formed with
    ⟨_, passed⟩ | ⟨_, touched, touchedFormed, touches, fewer, result⟩
  · simp [accepted, noExtras, matchesExtras] at passed
  refine ⟨touched, result, touchedFormed, fun slot mem => unused slot (fewer mem), ?_⟩
  generalize state.live = before at *
  generalize touched.live = after at touches ⊢
  cases touches with
  | @hit first behind entry same =>
      rw [absentLive entry (List.mem_append_right _ List.mem_cons_self)]
        at same
      cases same
  | @appended _ new slot _ data _ first hits =>
      rw [List.map_append, List.map_singleton, data, hits, unused slot first]
      exact perm.append_right _
  | evicted _ _ full =>
      omega

/-- A token that is there is hit. -/
theorem touched_hit {contents : List (Text × BitVec 32)} {hits : BitVec 32}
    (call : AutoCall) (holds : state.Holds ((call.mem, hits) :: contents))
    (accepted : rejected call.mem = false) (noExtras : call.extras = [])
    (absent : ∀ pair ∈ contents, sameNocase pair.1 call.mem = false) :
    ∃ touched : AutoExtras,
      state.maybeAddAuto qsort call = touched.sortAExtras qsort ∧
        touched.Holds ((call.mem, hits + 1#32) :: contents) := by
  obtain ⟨formed, unused, perm⟩ := holds
  obtain ⟨entry, known, content⟩ :=
    List.mem_map.mp (perm.symm.subset List.mem_cons_self)
  have present : sameNocase entry.data call.mem = true :=
    sameNocase_iff.mpr (congrArg (fun pair => pair.1.map toLower) content)
  rcases maybeAddAuto_cases call formed with
    ⟨_, passed⟩ | ⟨_, touched, touchedFormed, touches, fewer, result⟩
  · simp [accepted, noExtras, matchesExtras] at passed
  refine ⟨touched, result, touchedFormed, fun slot mem => unused slot (fewer mem), ?_⟩
  generalize state.live = before at *
  generalize touched.live = after at touches ⊢
  cases touches with
  | @hit first behind found same =>
      rw [List.map_append, List.map_cons] at perm
      have pair : (found.data, found.hitCnt) = (call.mem, hits) := by
        have there := perm.subset
          (List.mem_append_right _ List.mem_cons_self)
        refine (List.mem_cons.mp there).resolve_right fun other => ?_
        rw [absent _ other] at same
        cases same
      obtain ⟨data, counter⟩ := Prod.mk.inj pair
      rw [pair] at perm
      have rest := (List.perm_middle.symm.trans perm).cons_inv
      have bumped : ((bump found).data, (bump found).hitCnt) =
          (call.mem, hits + 1#32) :=
        Prod.ext data (congrArg (fun hits => hits + 1#32) counter)
      rw [List.map_append, List.map_cons, bumped]
      exact List.perm_middle.trans (rest.cons _)
  | appended none =>
      rw [none entry known] at present
      cases present
  | evicted none =>
      rw [none entry known] at present
      cases present

/-- New tokens are appended one after the other. -/
theorem run_adds (permutes : Qsort.Permutes qsort) (tokens : List Text)
    (holds : state.Holds contents) (accepted : ∀ token ∈ tokens, rejected token = false)
    (distinct : (contents.map Prod.fst ++ tokens).Pairwise
      fun a b => sameNocase a b = false)
    (room : contents.length + tokens.length ≤ maxAutoExtras) :
    ∃ reached, runMoves (step qsort) (tokens.map callOf) state = some reached ∧
      reached.Holds (contents ++ tokens.map fun token => (token, 0#32)) := by
  induction tokens generalizing state contents with
  | nil => exact ⟨state, rfl, by rwa [List.map_nil, List.append_nil]⟩
  | cons token tokens induction =>
      rw [List.forall_mem_cons] at accepted
      rw [List.length_cons] at room
      have absent : ∀ pair ∈ contents,
          sameNocase pair.1 (callOf token).mem = false := fun pair mem =>
        (List.pairwise_append.mp distinct).2.2 _ (List.mem_map_of_mem mem) _
          List.mem_cons_self
      obtain ⟨touched, result, touchedHolds⟩ := touched_append holds
        (callOf token) accepted.1 rfl absent (by omega)
      have next := holds_sortAExtras permutes touchedHolds
      rw [← result] at next
      rw [List.map_cons, List.map_cons, List.append_cons contents]
      refine induction next accepted.2 ?_ ?_
      · rw [List.map_append, List.append_assoc]
        exact distinct
      · rw [List.length_append, List.length_singleton]
        omega

/-- A token is hit again and again. -/
theorem run_hits (permutes : Qsort.Permutes qsort) (times : Nat) {hits : BitVec 32}
    (holds : state.Holds ((token, hits) :: contents)) (accepted : rejected token = false)
    (absent : ∀ pair ∈ contents, sameNocase pair.1 token = false) :
    ∃ reached, runMoves (step qsort)
        (List.replicate times (callOf token)) state = some reached ∧
      reached.Holds
        ((token, hits + BitVec.ofNat 32 times) :: contents) := by
  induction times generalizing state hits with
  | zero =>
      refine ⟨state, rfl, ?_⟩
      rwa [BitVec.add_zero]
  | succ times induction =>
      obtain ⟨touched, result, touchedHolds⟩ :=
        touched_hit (callOf token) holds accepted rfl absent
      have next := holds_sortAExtras permutes touchedHolds
      rw [← result] at next
      have goesOn := induction next
      rwa [BitVec.add_assoc, ← BitVec.ofNat_add, Nat.add_comm 1] at goesOn

/-- A token whose counter is by more than `INT_MAX` above the others goes to
the end of the list. -/
theorem disordered_sortAExtras (sorts : Qsort.Sorts qsort)
    (permutes : Qsort.Permutes qsort) {others : List Text}
    (number : others.length = useAutoExtras)
    (holds : state.Holds ((token, 2147483649#32) ::
      others.map fun other => (other, 0#32))) :
    ¬Ordered (state.sortAExtras qsort).live := by
  intro ordered
  obtain ⟨formed, _, perm⟩ := holds
  have counters : ∀ entry ∈ state.live,
      entry.hitCnt = 2147483649#32 ∨ entry.hitCnt = 0#32 := by
    intro entry mem
    rcases List.mem_cons.mp (perm.subset (List.mem_map_of_mem mem)) with
      first | other
    · exact .inl (congrArg Prod.snd first)
    · obtain ⟨_, _, same⟩ := List.mem_map.mp other
      exact .inr (congrArg Prod.snd same).symm
  have consistent : Qsort.Consistent compareAutoExtrasUseD state.live := by
    refine Qsort.consistent_of_difference
      (fun entry => if entry.hitCnt = 0#32 then 0 else 2147483647) ?_
    intro a first b second
    rw [compareAutoExtrasUseD]
    rcases counters a first with large | zero <;>
      rcases counters b second with large' | zero'
    · rw [large, large']
      decide
    · rw [large, zero']
      decide
    · rw [zero, large']
      decide
    · rw [zero, zero']
      decide
  obtain ⟨sortedPerm, descending⟩ := sorts _ _ consistent
  obtain ⟨top, rest⟩ := top_sortAExtras permutes formed
  have byUse := ordered.byUse
  rw [top, rest] at byUse
  generalize qsort compareAutoExtrasUseD state.live = sorted at *
  have topPerm := permutes compareAutoExtrasLen (sorted.take useAutoExtras)
  have length : sorted.length = useAutoExtras + 1 := by
    have total := perm.length_eq
    rw [List.length_map, List.length_cons, List.length_map, number] at total
    exact sortedPerm.length_eq.trans total
  -- exactly one entry has a hit: it is either in the top or behind it
  have once : (sorted.take useAutoExtras).countP
        (fun entry => entry.hitCnt ≠ 0#32) +
      (sorted.drop useAutoExtras).countP
        (fun entry => entry.hitCnt ≠ 0#32) = 1 := by
    have pairs := perm.countP_eq fun pair => decide (pair.2 ≠ 0#32)
    have none : (others.map fun other => (other, 0#32)).countP
        (fun pair => decide (pair.2 ≠ 0#32)) = 0 :=
      List.countP_eq_zero.mpr fun pair mem => by
        obtain ⟨_, _, rfl⟩ := List.mem_map.mp mem
        simp
    rw [List.countP_map, List.countP_cons_of_pos (by simp), none] at pairs
    rw [← List.countP_append, List.take_append_drop, sortedPerm.countP_eq]
    exact pairs
  rw [← List.take_append_drop useAutoExtras sorted, List.pairwise_append] at descending
  have known : ∀ entry ∈ sorted, entry.hitCnt ≠ 0#32 →
      entry.hitCnt = 2147483649#32 := fun entry mem hit =>
    (counters entry (sortedPerm.subset mem)).resolve_right hit
  have topEntry : ∃ entry, entry ∈ sorted.take useAutoExtras := by
    refine List.exists_mem_of_length_pos ?_
    rw [List.length_take, length]
    decide
  have lastEntry : ∃ entry, entry ∈ sorted.drop useAutoExtras := by
    refine List.exists_mem_of_length_pos ?_
    rw [List.length_drop, length]
    decide
  rcases Nat.eq_zero_or_pos ((sorted.drop useAutoExtras).countP
    (fun entry => entry.hitCnt ≠ 0#32)) with none | some
  · rw [none, Nat.add_zero] at once
    obtain ⟨a, front, hit⟩ := List.countP_pos_iff.mp
      (Nat.lt_of_lt_of_eq Nat.one_pos once.symm)
    obtain ⟨b, back⟩ := lastEntry
    have zero : b.hitCnt = 0#32 := by
      simpa using List.countP_eq_zero.mp none b back
    have less := descending.2.2 a front b back
    rw [compareAutoExtrasUseD, zero,
      known a (List.mem_of_mem_take front) (of_decide_eq_true hit)] at less
    exact absurd less (by decide)
  · obtain ⟨b, back, hit⟩ := List.countP_pos_iff.mp some
    obtain ⟨a, front⟩ := topEntry
    have zero : a.hitCnt = 0#32 := by
      have none : (sorted.take useAutoExtras).countP
          (fun entry => entry.hitCnt ≠ 0#32) = 0 := by omega
      simpa using List.countP_eq_zero.mp none a front
    have more := byUse a (topPerm.symm.subset front) b back
    rw [zero, known b (List.mem_of_mem_drop back) (of_decide_eq_true hit)]
      at more
    exact absurd more (by decide)

/-- The token number `k` of the run below. -/
def numbered (k : Nat) : Text :=
  [255#8, BitVec.ofNat 8 (k / 16), BitVec.ofNat 8 (k % 16)]

theorem numbered_distinct {k l : Nat} (first : k < 129) (second : l < 129)
    (different : k ≠ l) :
    sameNocase (numbered k) (numbered l) = false := by
  have digit : ∀ n < 16, (toLower (BitVec.ofNat 8 n)).toNat = n := by decide
  refine Bool.eq_false_iff.mpr fun same => different ?_
  have bytes := sameNocase_iff.mp same
  simp only [numbered, List.map_cons, List.map_nil, List.cons.injEq,
    true_and, and_true] at bytes
  have high := congrArg BitVec.toNat bytes.1
  have low := congrArg BitVec.toNat bytes.2
  rw [digit _ (by omega), digit _ (by omega)] at high low
  omega

/-- 129 tokens are found, and then the first of them 2^31 + 1 times again. -/
def numberedCalls : List AutoCall :=
  ((List.range 129).map numbered).map callOf ++
    List.replicate (2 ^ 31) (callOf (numbered 0)) ++ [callOf (numbered 0)]

/-- The token that is found most stands behind the others then, which have not
been found again. -/
theorem autoExtras_disordered :
    ∃ reached, runMoves (step Qsort.insertionSort) numberedCalls start =
        some reached ∧ ¬Ordered reached.live := by
  have accepted : ∀ k < 129, rejected (numbered k) = false := by decide
  let tokens := (List.range 129).map numbered
  let others := (List.range' 1 128).map numbered
  have split : tokens = numbered 0 :: others := rfl
  have distinct : tokens.Pairwise fun a b => sameNocase a b = false := by
    refine List.pairwise_map.mpr ?_
    refine List.Pairwise.imp_of_mem ?_ (@List.nodup_range 129)
    intro k l first second different
    exact numbered_distinct (List.mem_range.mp first)
      (List.mem_range.mp second) different
  have empty : start.Holds [] := by
    refine ⟨wellFormed_start, fun slot mem => ?_, .nil⟩
    exact sound_start.unused slot mem
  obtain ⟨filled, adds, filledHolds⟩ := run_adds Qsort.insertionSort_perm
    tokens empty (List.forall_mem_map.mpr fun k mem =>
      accepted k (List.mem_range.mp mem)) distinct (by
        rw [List.length_map, List.length_range]
        decide)
  have absent : ∀ pair ∈ others.map fun token => (token, 0#32),
      sameNocase pair.1 (numbered 0) = false := by
    intro pair mem
    obtain ⟨token, known, rfl⟩ := List.mem_map.mp mem
    rw [split, List.pairwise_cons] at distinct
    exact (sameNocase_comm _ _).trans (distinct.1 token known)
  rw [List.nil_append, split, List.map_cons] at filledHolds
  obtain ⟨full, hits, fullHolds⟩ := run_hits Qsort.insertionSort_perm (2 ^ 31)
    filledHolds (accepted 0 (by decide)) absent
  obtain ⟨touched, last, touchedHolds⟩ := @touched_hit full
    Qsort.insertionSort _ _ (callOf (numbered 0)) fullHolds
    (accepted 0 (by decide)) rfl absent
  refine ⟨touched.sortAExtras Qsort.insertionSort, ?_, ?_⟩
  · rw [numberedCalls, runMoves_append, runMoves_append, adds, Option.bind_some, hits,
      Option.bind_some]
    exact congrArg some last
  · refine disordered_sortAExtras Qsort.insertionSort_sorts
      Qsort.insertionSort_perm ?_ touchedHolds
    rw [List.length_map, List.length_range']
    rfl

end AutoExtras

end AFLPlusPlus.Dictionary
