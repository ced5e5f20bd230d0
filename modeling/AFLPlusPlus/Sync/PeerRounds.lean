import AFLPlusPlus.Support.Transitions
import AFLPlusPlus.Sync.SyncFuzzers
import Mathlib.Algebra.Order.Ring.Nat

/-!
# One instance over many rounds

Over rounds of which some are cut short, and next to any other instances, the
cases of a growing queue are run in the order of their ids, each of them once in
the completed rounds.
-/

namespace AFLPlusPlus

def caseCount (listed : List QueueFile) : Nat :=
  listed.countP fun file => decide (file.dName.head? ≠ some '.')

def SyncedCase.id (synced : SyncedCase) : Nat := synced.syncingCase.toNat

/-- The cases from `next` on with their ids, but for the skipped ones. -/
def usableFrom (next : Nat) (files : List QueueFile) : List (QueueFile × Nat) :=
  (files.zipIdx next).filter fun numbered => decide numbered.1.Usable

theorem usableFrom_cons (next : Nat) (file : QueueFile)
    (later : List QueueFile) :
    usableFrom next (file :: later) =
      if file.Usable then (file, next) :: usableFrom (next + 1) later
      else usableFrom (next + 1) later := by
  rw [usableFrom, List.zipIdx_cons, List.filter_cons]
  simp only [decide_eq_true_eq]
  rfl

/-- What the loop leaves behind: it runs the usable cases in order, and counts
all of them, unless it is cut short. -/
structure LoopResult (next : Nat) (files : List QueueFile)
    (loop : ImportLoop) : Prop where
  started : loop.imported.map (fun synced => (synced.file, synced.id)) <+:
    usableFrom next files
  finished : loop.cut = false →
    loop.imported.map (fun synced => (synced.file, synced.id)) = usableFrom next files
  counted : loop.cut = false →
    loop.nextMinAccept = BitVec.ofNat 32 (next + files.length)

theorem importCases_result (syncing : Syncing) {files : List QueueFile}
    {next : Nat} (small : next + files.length < 2 ^ 32) (execs : Nat) :
    LoopResult next files
      (importCases syncing files (BitVec.ofNat 32 next) execs) := by
  induction files generalizing next execs with
  | nil => exact ⟨List.nil_prefix, fun _ => rfl, fun _ => rfl⟩
  | cons file later induction =>
      rw [List.length_cons] at small
      have number : (BitVec.ofNat 32 next).toNat = next := by
        rw [BitVec.toNat_ofNat, Nat.mod_eq_of_lt (by omega)]
      have bump : BitVec.ofNat 32 next + 1 = BitVec.ofNat 32 (next + 1) :=
        (BitVec.ofNat_add next 1).symm
      have total : next + (file :: later).length = next + 1 + later.length := by
        rw [List.length_cons]
        omega
      have rest : ∀ execs, LoopResult (next + 1) later
          (importCases syncing later (BitVec.ofNat 32 (next + 1)) execs) :=
        fun execs => induction (by omega) execs
      have skip : ¬file.Usable → ∀ execs, LoopResult next (file :: later)
          (importCases syncing later (BitVec.ofNat 32 next + 1) execs) := by
        intro unusable execs
        obtain ⟨started, finished, counted⟩ := rest execs
        rw [bump]
        refine ⟨?_, ?_, ?_⟩
        · rwa [usableFrom_cons, if_neg unusable]
        · rwa [usableFrom_cons, if_neg unusable]
        · rwa [total]
      unfold importCases
      dsimp only
      by_cases closed : file.opens = false
      · rw [if_pos closed]
        apply skip
        intro usable
        exact Bool.false_ne_true (closed.symm.trans usable.1)
      · rw [if_neg closed]
        by_cases sized : file.size ≠ 0 ∧ file.size ≤ maxFile
        · have usable : file.Usable := ⟨by simpa using closed, sized⟩
          rw [if_pos sized]
          by_cases stop : syncing.stopSoon (execs + 1) = true
          · rw [if_pos stop]
            refine ⟨?_, fun running => absurd running (by simp), fun running =>
              absurd running (by simp)⟩
            rw [usableFrom_cons, if_pos usable]
            simp only [List.map_cons, List.map_nil, SyncedCase.id, number]
            exact ⟨_, rfl⟩
          · obtain ⟨started, finished, counted⟩ := rest (execs + 1)
            rw [if_neg stop, bump]
            refine ⟨?_, ?_, ?_⟩
            · rw [usableFrom_cons, if_pos usable, List.map_cons]
              simp only [SyncedCase.id, number]
              exact List.prefix_cons_inj _ |>.mpr started
            · intro running
              rw [usableFrom_cons, if_pos usable, List.map_cons, finished running]
              simp only [SyncedCase.id, number]
            · intro running
              rw [total]
              exact counted running
        · rw [if_neg sized]
          apply skip
          intro usable
          exact sized usable.2

variable {peer : CString} {count : Nat} {file : QueueFile} {entry : SyncEntry}
    {state : SyncState}

theorem mem_usableFrom {cases : List QueueFile} {next : Nat} {id : Nat} :
    (file, id) ∈ usableFrom next (cases.drop next) ↔
      next ≤ id ∧ cases[id]? = some file ∧ file.Usable := by
  rw [usableFrom, List.mem_filter, List.mk_mem_zipIdx_iff_le_and_getElem?_sub,
    decide_eq_true_iff, List.getElem?_drop, and_assoc]
  apply and_congr_right
  intro le
  rw [Nat.add_sub_cancel' le]

theorem usableFrom_ids (next : Nat) (files : List QueueFile) :
    ((usableFrom next files).map Prod.snd).Pairwise (· < ·) := by
  have sublist : ((usableFrom next files).map Prod.snd).Sublist
      (List.range' next files.length) := by
    have filtered : (usableFrom next files).Sublist (files.zipIdx next) :=
      List.filter_sublist
    have mapped := filtered.map Prod.snd
    rwa [List.zipIdx_map_snd] at mapped
  exact List.Pairwise.sublist sublist List.pairwise_lt_range'

/-- A visit of a queue with these cases, when the number stored before it was
`known`. -/
structure VisitResult (known : Nat) (directory cases : List QueueFile)
    (visit : Visit) : Prop where
  listed : visit.listed = scandir directory
  started : visit.imported.map (fun synced => (synced.file, synced.id)) <+:
    usableFrom known (cases.drop known)
  finished : visit.completed = true →
    visit.imported.map (fun synced => (synced.file, synced.id)) =
      usableFrom known (cases.drop known)
  stored : visit.stored.getD 0#32 =
    BitVec.ofNat 32 (if visit.completed then cases.length else known)

private theorem name_ne_last (name : CString) : name ≠ name ++ lastSuffix := by
  intro same
  have lengths := congrArg List.length same
  rw [List.length_append] at lengths
  exact absurd lengths (by simp [lastSuffix])

theorem syncPeer_visit (syncing : Syncing) {directory cases : List QueueFile}
    (queue : entry.queue = some directory) (listing : CaseListing directory cases)
    (few : cases.length < 1000000) {known : Nat} (inside : known ≤ cases.length)
    (stored : (state.synced entry.dName).getD 0#32 = BitVec.ofNat 32 known) :
    let after := syncPeer syncing state entry
    (after.visits = state.visits ∧
        after.synced entry.dName = state.synced entry.dName) ∨
      ∃ visit, visit.peer = entry.dName ∧ VisitResult known directory cases visit ∧
        after.visits = state.visits ++ [visit] ∧
        after.synced entry.dName = visit.stored := by
  intro after
  have number : (BitVec.ofNat 32 known).toNat = known := by
    rw [BitVec.toNat_ofNat, Nat.mod_eq_of_lt (by omega)]
  have other : Function.update state.synced (entry.dName ++ lastSuffix) none
      entry.dName = state.synced entry.dName :=
    Function.update_of_ne (name_ne_last entry.dName) _ _
  have unfolded : after = syncPeer syncing state entry := rfl
  unfold syncPeer at unfolded
  rw [queue] at unfolded
  simp only [other, stored, number, listing.dropWhile_eq (by omega) inside]
    at unfolded
  by_cases empty : scandir directory = []
  · rw [if_pos empty] at unfolded
    refine .inl ⟨?_, ?_⟩
    · rw [unfolded]
    · rw [unfolded]
      exact other
  · rw [if_neg empty] at unfolded
    by_cases nothingNew : cases.drop known = []
    · have all : known = cases.length := by
        have beyond := List.drop_eq_nil_iff.mp nothingNew
        omega
      rw [if_pos nothingNew] at unfolded
      refine .inr ⟨⟨entry.dName, scandir directory, [], true,
        state.synced entry.dName⟩, rfl, ⟨rfl, ?_, ?_, ?_⟩, ?_, ?_⟩
      · exact List.nil_prefix
      · intro _
        rw [nothingNew]
        rfl
      · rw [if_pos rfl, ← all]
        exact stored
      · rw [unfolded]
      · rw [unfolded]
        exact other
    · rw [if_neg nothingNew] at unfolded
      have small : known + (cases.drop known).length < 2 ^ 32 := by
        rw [List.length_drop]
        omega
      have result := importCases_result syncing small state.execs
      generalize importCases syncing (cases.drop known) (BitVec.ofNat 32 known)
        state.execs = loop at result unfolded
      refine .inr ⟨⟨entry.dName, scandir directory, loop.imported, !loop.cut,
        if loop.cut then state.synced entry.dName
        else some loop.nextMinAccept⟩, rfl,
        ⟨rfl, result.started, ?_, ?_⟩, ?_, ?_⟩
      · intro completed
        exact result.finished (by simpa using completed)
      · cases cut : loop.cut with
        | true => exact stored
        | false =>
            rw [result.counted cut, List.length_drop, Nat.add_sub_cancel' inside]
            rfl
      · rw [unfolded]
      · rw [unfolded]
        exact Function.update_self _ _ _

def SyncState.visitsOf (state : SyncState) (peer : CString) : List Visit :=
  state.visits.filter fun visit => decide (visit.peer = peer)

/-- A visit of another instance, whose name does not get in the way. -/
theorem syncPeer_other (syncing : Syncing) (state : SyncState)
    (other : entry.dName ≠ peer) (apart : entry.dName ++ lastSuffix ≠ peer) :
    (syncPeer syncing state entry).visitsOf peer = state.visitsOf peer ∧
      (syncPeer syncing state entry).synced peer = state.synced peer := by
  have attempted : Function.update state.synced (entry.dName ++ lastSuffix)
      none peer = state.synced peer :=
    Function.update_of_ne apart.symm _ _
  have visited : ∀ listed imported completed stored,
      (state.visits ++ [Visit.mk entry.dName listed imported completed stored]).filter
        (fun visit => decide (visit.peer = peer)) = state.visitsOf peer := by
    intro listed imported completed stored
    rw [List.filter_append, List.filter_cons_of_neg (by simpa using other),
      List.filter_nil, List.append_nil]
    rfl
  unfold syncPeer
  split
  · exact ⟨rfl, attempted⟩
  · dsimp only
    split
    · exact ⟨rfl, attempted⟩
    · split
      · exact ⟨visited _ _ _ _, attempted⟩
      · refine ⟨visited _ _ _ _, ?_⟩
        exact (Function.update_of_ne other.symm _ _).trans attempted

def Visit.ids (visit : Visit) : List Nat := visit.imported.map SyncedCase.id

def Visit.Lists (visit : Visit) (id : Nat) : Prop :=
  ∃ file ∈ visit.listed, file.IsCase id

/-- Over the visits of one instance the usable cases are run in the order of
their ids, each one in the first completed visit that lists it and in no other
completed visit; `syncing_case` is the id in the name of the file; and what is
stored after a completed visit is the number of cases listed. -/
structure SyncedInOrder (visits : List Visit) : Prop where
  named : ∀ visit ∈ visits, ∀ synced ∈ visit.imported,
    synced.file ∈ visit.listed ∧ synced.file.Usable ∧ synced.file.IsCase synced.id
  ordered : ∀ visit ∈ visits, visit.ids.Pairwise (· < ·)
  once : ((visits.filter Visit.completed).flatMap Visit.ids).Pairwise (· < ·)
  all : ∀ earlier visit later, visits = earlier ++ visit :: later →
    visit.completed = true → ∀ file ∈ visit.listed, ∀ id, file.IsCase id →
      file.Usable →
      (∀ before ∈ earlier, before.completed = true → ¬before.Lists id) →
      ∃ synced ∈ visit.imported, synced.file = file ∧ synced.id = id
  stored : ∀ visit ∈ visits, visit.completed = true →
    visit.stored.getD 0#32 = BitVec.ofNat 32 (caseCount visit.listed)

/-- The cases below `known` are done. -/
structure KnownUpTo (known : Nat) (visits : List Visit) : Prop where
  result : SyncedInOrder visits
  below : ∀ visit ∈ visits, visit.completed = true → ∀ id ∈ visit.ids, id < known
  reached : ∀ id < known, ∃ visit ∈ visits, visit.completed = true ∧ visit.Lists id

theorem CaseListing.caseCount_eq {directory cases : List QueueFile}
    (listing : CaseListing directory cases) :
    caseCount (scandir directory) = cases.length := by
  obtain ⟨hidden, listed, dots⟩ := listing.scandir_eq
  have noHidden : caseCount hidden = 0 := by
    apply List.countP_eq_zero.mpr
    intro file member
    obtain ⟨rest, name⟩ := dots file member
    rw [name, List.head?_cons]
    decide
  have allCases : caseCount cases = cases.length := by
    apply List.countP_eq_length.mpr
    intro file member
    obtain ⟨position, rfl⟩ := List.get_of_mem member
    obtain ⟨_, rest, name⟩ := listing.isCase position.1 position.2
    rw [name, idEntry, List.cons_append, List.head?_cons]
    decide
  rw [listed, caseCount, List.countP_append, ← caseCount, ← caseCount,
    noHidden, allCases, Nat.zero_add]

theorem CaseListing.mem_iff {directory cases : List QueueFile}
    (listing : CaseListing directory cases) {id : Nat} (isCase : file.IsCase id) :
    file ∈ scandir directory ↔ cases[id]? = some file := by
  obtain ⟨hidden, listed, dots⟩ := listing.scandir_eq
  rw [listed, List.mem_append, List.getElem?_eq_some_iff]
  constructor
  · rintro (inHidden | inCases)
    · exact absurd isCase ((dots file inHidden).not_isCase id)
    · obtain ⟨position, rfl⟩ := List.get_of_mem inCases
      have same := (listing.isCase position.1 position.2).unique isCase
      exact ⟨same ▸ position.2, by simp [← same]⟩
  · rintro ⟨inside, rfl⟩
    exact .inr (List.getElem_mem inside)

namespace VisitResult

variable {known : Nat} {directory cases : List QueueFile} {visit : Visit}

theorem ids_eq (visit : Visit) :
    visit.ids = (visit.imported.map fun synced =>
      (synced.file, synced.id)).map Prod.snd := by
  rw [List.map_map]
  rfl

section

variable (result : VisitResult known directory cases visit)
include result

theorem ordered : visit.ids.Pairwise (· < ·) := by
  rw [ids_eq]
  exact (usableFrom_ids known _).sublist (result.started.sublist.map Prod.snd)

theorem imported {synced : SyncedCase} (member : synced ∈ visit.imported) :
    known ≤ synced.id ∧ cases[synced.id]? = some synced.file ∧ synced.file.Usable :=
  mem_usableFrom.mp (result.started.subset (List.mem_map_of_mem member))

theorem imported_of_completed (completed : visit.completed = true) {id : Nat}
    (le : known ≤ id) (here : cases[id]? = some file) (usable : file.Usable) :
    ∃ synced ∈ visit.imported, synced.file = file ∧ synced.id = id := by
  have member := mem_usableFrom.mpr ⟨le, here, usable⟩
  rw [← result.finished completed] at member
  obtain ⟨synced, isImported, same⟩ := List.mem_map.mp member
  obtain ⟨sameFile, sameId⟩ := Prod.mk.inj same
  exact ⟨synced, isImported, sameFile, sameId⟩

end

end VisitResult

namespace KnownUpTo

variable {known : Nat} {visits : List Visit}

theorem start : KnownUpTo 0 [] where
  result :=
    { named := fun _ member => absurd member List.not_mem_nil
      ordered := fun _ member => absurd member List.not_mem_nil
      once := List.Pairwise.nil
      all := by
        intro earlier visit later split
        exact absurd split (by simp)
      stored := fun _ member => absurd member List.not_mem_nil }
  below := fun _ member => absurd member List.not_mem_nil
  reached := fun _ less => absurd less (Nat.not_lt_zero _)

/-- One more visit of the queue, which has grown in the meantime. -/
theorem visit {directory cases : List QueueFile} {visit : Visit}
    (holds : KnownUpTo known visits) (inside : known ≤ cases.length)
    (listing : CaseListing directory cases)
    (result : VisitResult known directory cases visit) :
    KnownUpTo (if visit.completed then cases.length else known)
      (visits ++ [visit]) where
  result :=
    { named := by
        intro other member synced isImported
        rcases List.mem_append.mp member with old | new
        · exact holds.result.named other old synced isImported
        · rw [List.mem_singleton.mp new] at isImported ⊢
          obtain ⟨_, here, usable⟩ := result.imported isImported
          obtain ⟨within, file⟩ := List.getElem?_eq_some_iff.mp here
          have isCase := listing.isCase synced.id within
          rw [List.get_eq_getElem, file] at isCase
          refine ⟨?_, usable, isCase⟩
          rw [result.listed]
          exact (listing.mem_iff isCase).mpr here
      ordered := by
        intro other member
        rcases List.mem_append.mp member with old | new
        · exact holds.result.ordered other old
        · rw [List.mem_singleton.mp new]
          exact result.ordered
      once := by
        rw [List.filter_append, List.flatMap_append]
        refine List.pairwise_append.mpr ⟨holds.result.once, ?_, ?_⟩
        · rw [List.filter_singleton]
          cases visit.completed with
          | true =>
              rw [cond_true, List.flatMap_singleton]
              exact result.ordered
          | false => exact List.Pairwise.nil
        · intro old isOld new isNew
          obtain ⟨before, inVisits, isId⟩ := List.mem_flatMap.mp isOld
          obtain ⟨member, completed⟩ := List.mem_filter.mp inVisits
          have less := holds.below before member completed old isId
          obtain ⟨last, inLast, isLastId⟩ := List.mem_flatMap.mp isNew
          rw [List.mem_singleton.mp (List.mem_of_mem_filter inLast)]
            at isLastId
          obtain ⟨synced, isImported, rfl⟩ := List.mem_map.mp isLastId
          exact Nat.lt_of_lt_of_le less (result.imported isImported).1
      all := by
        intro earlier other later split completed file member id isCase usable
          notBefore
        rcases history_split split with ⟨rfl, rfl⟩ | ⟨rest, old⟩
        · rw [result.listed] at member
          have here := (listing.mem_iff isCase).mp member
          apply result.imported_of_completed completed _ here usable
          by_contra less
          obtain ⟨before, inVisits, wasCompleted, lists⟩ := holds.reached id (by omega)
          exact notBefore before inVisits wasCompleted lists
        · exact holds.result.all earlier other rest old completed file member
            id isCase usable notBefore
      stored := by
        intro other member completed
        rcases List.mem_append.mp member with old | new
        · exact holds.result.stored other old completed
        · rw [List.mem_singleton.mp new] at completed ⊢
          rw [result.stored, if_pos completed, result.listed, listing.caseCount_eq] }
  below := by
    intro other member completed id isId
    rcases List.mem_append.mp member with old | new
    · have less := holds.below other old completed id isId
      split
      · exact Nat.lt_of_lt_of_le less inside
      · exact less
    · rw [List.mem_singleton.mp new] at completed isId
      obtain ⟨synced, isImported, rfl⟩ := List.mem_map.mp isId
      rw [if_pos completed]
      exact (List.getElem?_eq_some_iff.mp (result.imported isImported).2.1).1
  reached := by
    intro id less
    by_cases old : id < known
    · obtain ⟨other, member, found⟩ := holds.reached id old
      exact ⟨other, List.mem_append_left _ member, found⟩
    · split at less
      · rename_i completed
        have isCase := listing.isCase id less
        refine ⟨visit, List.mem_append_right _ (List.mem_singleton.mpr rfl),
          completed, _, ?_, isCase⟩
        rw [result.listed]
        exact (listing.mem_iff isCase).mpr (List.getElem?_eq_getElem less)
      · exact absurd less old

end KnownUpTo

/-- The names that `fix_up_sync` accepts for an instance. -/
def validSyncId (name : CString) : Bool :=
  name.all (fun x => x.isAlphanum || x = '_' || x = '-') &&
    decide (name.length ≤ 32)

theorem append_last_ne (valid : validSyncId peer = true) (name : CString) :
    name ++ lastSuffix ≠ peer := by
  intro same
  have characters := (Bool.and_eq_true_iff.mp valid).1
  rw [List.all_eq_true] at characters
  have dot : '.' ∈ peer := by
    rw [← same]
    exact List.mem_append_right name List.mem_cons_self
  exact absurd (characters '.' dot) (by decide)

/-- The queue of one instance from round to round: dot files and the cases 0,
1, 2, …, which only become more. -/
inductive GrowingQueue (peer : CString) : Nat → List (List SyncEntry) → Prop
  | nil (count : Nat) : GrowingQueue peer count []
  | round {count grown : Nat} {syncDir : List SyncEntry}
      {later : List (List SyncEntry)} (grows : count ≤ grown)
      (few : grown < 1000000)
      (queue : ∀ entry ∈ syncDir, entry.dName = peer →
        ∀ directory, entry.queue = some directory →
          ∃ cases, CaseListing directory cases ∧ cases.length = grown)
      (rest : GrowingQueue peer grown later) :
      GrowingQueue peer count (syncDir :: later)

/-- What holds of one instance between two entries of the sync directory. -/
def PeerKnown (peer : CString) (count : Nat) (state : SyncState) : Prop :=
  ∃ known ≤ count, KnownUpTo known (state.visitsOf peer) ∧
    (state.synced peer).getD 0#32 = BitVec.ofNat 32 known

theorem PeerKnown.syncPeer (holds : PeerKnown peer count state) (syncing : Syncing)
    (few : count < 1000000)
    (queue : entry.dName = peer → ∀ directory, entry.queue = some directory →
      ∃ cases, CaseListing directory cases ∧ cases.length = count)
    (apart : entry.dName ++ lastSuffix ≠ peer) :
    PeerKnown peer count (syncPeer syncing state entry) := by
  obtain ⟨known, inside, knownUpTo, stored⟩ := holds
  by_cases same : entry.dName = peer
  · subst same
    cases opened : entry.queue with
    | none =>
        refine ⟨known, inside, ?_, ?_⟩
        · rw [AFLPlusPlus.syncPeer, opened]
          exact knownUpTo
        · rw [AFLPlusPlus.syncPeer, opened, ← stored]
          exact congrArg (Option.getD · 0#32)
            (Function.update_of_ne (name_ne_last entry.dName) _ _)
    | some directory =>
        obtain ⟨cases, listing, rfl⟩ := queue rfl directory opened
        rcases syncPeer_visit syncing opened listing few inside stored with
          ⟨visits, synced⟩ | ⟨visit, peer, result, visits, synced⟩
        · refine ⟨known, inside, ?_, ?_⟩
          · rw [SyncState.visitsOf, visits]
            exact knownUpTo
          · rw [synced]
            exact stored
        · refine ⟨if visit.completed then cases.length else known, ?_, ?_, ?_⟩
          · split
            · exact Nat.le_refl _
            · exact inside
          · rw [SyncState.visitsOf, visits, List.filter_append,
              List.filter_cons_of_pos (by simpa using peer), List.filter_nil]
            exact knownUpTo.visit inside listing result
          · rw [synced]
            exact result.stored
  · obtain ⟨visits, synced⟩ := syncPeer_other syncing state same apart
    exact ⟨known, inside, visits ▸ knownUpTo, synced ▸ stored⟩

theorem PeerKnown.syncEntry {round : SyncRound} (holds : PeerKnown peer count round.state)
    (syncing : Syncing) (few : count < 1000000)
    (queue : entry.dName = peer → ∀ directory, entry.queue = some directory →
      ∃ cases, CaseListing directory cases ∧ cases.length = count)
    (apart : entry.dName ++ lastSuffix ≠ peer) :
    PeerKnown peer count (syncEntry syncing round entry).state := by
  unfold AFLPlusPlus.syncEntry
  split
  · exact holds
  · split
    · split
      · refine PeerKnown.syncPeer ?_ syncing few queue apart
        split
        · exact holds
        · exact holds
      · split
        · exact holds.syncPeer syncing few queue apart
        · exact holds
    · exact holds.syncPeer syncing few queue apart

theorem PeerKnown.syncFuzzers (holds : PeerKnown peer count state) (syncing : Syncing)
    (few : count < 1000000) {syncDir : List SyncEntry}
    (queue : ∀ entry ∈ syncDir, entry.dName = peer →
      ∀ directory, entry.queue = some directory →
        ∃ cases, CaseListing directory cases ∧ cases.length = count)
    (apart : ∀ entry ∈ syncDir, entry.dName ++ lastSuffix ≠ peer) :
    PeerKnown peer count (syncFuzzers syncing state syncDir) := by
  have entries : ∀ (syncDir : List SyncEntry) (round : SyncRound),
      PeerKnown peer count round.state →
      (∀ entry ∈ syncDir, entry.dName = peer →
        ∀ directory, entry.queue = some directory →
          ∃ cases, CaseListing directory cases ∧ cases.length = count) →
      (∀ entry ∈ syncDir, entry.dName ++ lastSuffix ≠ peer) →
      PeerKnown peer count
        (syncDir.foldl (AFLPlusPlus.syncEntry syncing) round).state := by
    intro syncDir
    induction syncDir with
    | nil => exact fun _ holds _ _ => holds
    | cons entry later induction =>
        intro round holds queue apart
        apply induction
        · exact holds.syncEntry syncing few (queue entry List.mem_cons_self)
            (apart entry List.mem_cons_self)
        · exact fun other member =>
            queue other (List.mem_cons_of_mem entry member)
        · exact fun other member =>
            apart other (List.mem_cons_of_mem entry member)
  have final := entries syncDir ⟨state, 0, 0⟩ holds queue apart
  unfold AFLPlusPlus.syncFuzzers
  dsimp only
  split
  · exact final
  · exact final

theorem PeerKnown.syncRounds (valid : validSyncId peer = true)
    {rounds : List (List SyncEntry)} (growing : GrowingQueue peer count rounds)
    (holds : PeerKnown peer count state) (syncing : Syncing) :
    ∃ final, PeerKnown peer final (syncRounds syncing rounds state) := by
  induction growing generalizing state with
  | nil count => exact ⟨count, holds⟩
  | round grows few queue _ induction =>
      obtain ⟨known, inside, knownUpTo, stored⟩ := holds
      have grown : PeerKnown peer _ state :=
        ⟨known, Nat.le_trans inside grows, knownUpTo, stored⟩
      exact induction (grown.syncFuzzers syncing few queue
        fun entry _ => append_last_ne valid entry.dName)

/-- The rounds of `sync_fuzzers`, from the first one on, import the queue of an
instance in order. -/
theorem syncRounds_inOrder (syncing : Syncing) {peer : CString}
    (valid : validSyncId peer = true) {rounds : List (List SyncEntry)}
    (growing : GrowingQueue peer 0 rounds) {start : SyncState}
    (noVisits : start.visitsOf peer = [])
    (nothingStored : start.synced peer = none) :
    SyncedInOrder ((syncRounds syncing rounds start).visitsOf peer) := by
  have known : PeerKnown peer 0 start := by
    refine ⟨0, Nat.le_refl 0, ?_, ?_⟩
    · rw [noVisits]
      exact .start
    · rw [nothingStored]
      rfl
  obtain ⟨count, final, _, knownUpTo, _⟩ := known.syncRounds valid growing syncing
  exact knownUpTo.result

def quietSyncing : Syncing := ⟨['a'], false, fun _ => false⟩

def firstSync : SyncState := ⟨true, fun _ => none, 0, []⟩

/-- The first case of the instance `b`, with a file of so many bytes. -/
def firstCase (size : Nat) : QueueFile := ⟨idEntry 0, true, size⟩

/-- The instance `b` with one case. -/
def peerWithCase (size : Nat) : SyncEntry := ⟨['b'], false, some [firstCase size]⟩

theorem firstCase_listing (size : Nat) :
    CaseListing [firstCase size] [firstCase size] where
  distinct := List.nodup_singleton _
  files := ⟨[], List.Perm.refl _, fun _ member =>
    absurd member List.not_mem_nil⟩
  isCase := by
    intro id inside
    obtain rfl : id = 0 := Nat.lt_one_iff.mp inside
    exact ⟨by decide, [], (List.append_nil _).symm⟩

theorem syncRounds_inOrder_twoRounds :
    SyncedInOrder ((syncRounds quietSyncing
      [[peerWithCase 5], [peerWithCase 5]] firstSync).visitsOf ['b']) := by
  have queue : ∀ entry ∈ [peerWithCase 5], entry.dName = ['b'] →
      ∀ directory, entry.queue = some directory →
        ∃ cases, CaseListing directory cases ∧ cases.length = 1 := by
    intro entry member _ directory opened
    rw [List.mem_singleton.mp member] at opened
    rw [← Option.some.inj opened]
    exact ⟨_, firstCase_listing 5, rfl⟩
  exact syncRounds_inOrder quietSyncing (by decide)
    (.round (Nat.zero_le 1) (by decide) queue
      (.round (Nat.le_refl 1) (by decide) queue (.nil 1))) rfl rfl

/-- A case whose file is empty is listed by a completed round and never run. -/
theorem syncRounds_skips_emptyCase :
    ¬∀ visit ∈ (syncRounds quietSyncing [[peerWithCase 0]] firstSync).visitsOf
        ['b'], visit.completed = true → ∀ file ∈ visit.listed, ∀ id,
      file.IsCase id → ∃ synced ∈ visit.imported, synced.file = file := by
  intro allRun
  have listed : scandir [firstCase 0] = [firstCase 0] := List.mergeSort_singleton _
  have visits : (syncRounds quietSyncing [[peerWithCase 0]] firstSync).visitsOf ['b'] =
      [⟨['b'], [firstCase 0], [], true, some 1#32⟩] := by
    have peer : syncPeer quietSyncing firstSync (peerWithCase 0) =
        { firstSync with
          synced := Function.update
            (Function.update firstSync.synced (['b'] ++ lastSuffix) none)
            ['b'] (some 1#32)
          visits := [⟨['b'], [firstCase 0], [], true, some 1#32⟩] } := by
      rw [syncPeer]
      simp only [peerWithCase, listed]
      rfl
    change ((syncPeer quietSyncing firstSync (peerWithCase 0)).visits.filter _) = _
    rw [peer]
    rfl
  rw [visits] at allRun
  obtain ⟨synced, member, _⟩ := allRun _ (List.mem_singleton.mpr rfl) rfl
    (firstCase 0) (List.mem_singleton.mpr rfl) 0
    ((firstCase_listing 0).isCase 0 (by decide))
  exact absurd member List.not_mem_nil

end AFLPlusPlus
