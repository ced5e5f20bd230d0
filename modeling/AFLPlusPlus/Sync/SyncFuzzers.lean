import AFLPlusPlus.Sync.QueueListing

/-!
# Syncing with the other instances

`sync_fuzzers` visits every other instance in the sync directory and runs the
cases that were added to its queue since the last visit.  What it remembers of
an instance is one number, in a file of the directory `.synced`.
-/

namespace AFLPlusPlus

/-- An entry of `sync_dir`. -/
structure SyncEntry where
  dName : CString
  /-- the file `is_main_node` exists -/
  isMainNode : Bool
  /-- the directory `queue`, if `scandir` can read it -/
  queue : Option (List QueueFile)

/-- A case that was run, and whether it was handed to `save_if_interesting`. -/
structure SyncedCase where
  file : QueueFile
  syncingCase : BitVec 32
  handed : Bool

/-- A visit of one instance. -/
structure Visit where
  peer : CString
  /-- `namelist` -/
  listed : List QueueFile
  imported : List SyncedCase
  /-- not cut short by `stop_soon` -/
  completed : Bool
  /-- the number in `.synced` after the visit, if there is one -/
  stored : Option (BitVec 32)

/-- The instance that syncs. -/
structure Syncing where
  syncId : CString
  isSecondaryNode : Bool
  /-- `stop_soon` after so many executions -/
  stopSoon : Nat → Bool

/-- What lasts from one round to the next, with the visits so far. -/
structure SyncState where
  isMainNode : Bool
  /-- the number in a file of `.synced`, if it holds one -/
  synced : CString → Option (BitVec 32)
  execs : Nat
  visits : List Visit

/-- The result of the loop over the new cases. -/
structure ImportLoop where
  nextMinAccept : BitVec 32
  execs : Nat
  imported : List SyncedCase
  cut : Bool

/-- A case that is not skipped: `open` succeeds, and the file is neither empty
nor oversized. -/
def QueueFile.Usable (file : QueueFile) : Prop :=
  file.opens = true ∧ file.size ≠ 0 ∧ file.size ≤ maxFile

instance (file : QueueFile) : Decidable file.Usable :=
  inferInstanceAs (Decidable (_ ∧ _))

/-- The loop over `namelist` from the first new case on. -/
def importCases (syncing : Syncing) : List QueueFile → BitVec 32 → Nat → ImportLoop
  | [], nextMinAccept, execs => ⟨nextMinAccept, execs, [], false⟩
  | file :: later, nextMinAccept, execs =>
      let syncingCase := nextMinAccept
      if file.opens = false then
        importCases syncing later (nextMinAccept + 1) execs
      else if file.size ≠ 0 ∧ file.size ≤ maxFile then
        if syncing.stopSoon (execs + 1) then
          ⟨nextMinAccept + 1, execs + 1, [⟨file, syncingCase, false⟩], true⟩
        else
          let rest := importCases syncing later (nextMinAccept + 1) (execs + 1)
          { rest with
            imported := ⟨file, syncingCase, true⟩ :: rest.imported }
      else importCases syncing later (nextMinAccept + 1) execs

def lastSuffix : CString := ['.', 'l', 'a', 's', 't']

/-- What is done for an instance that is not passed over.  The file of the
attempt is truncated. -/
def syncPeer (syncing : Syncing) (state : SyncState) (entry : SyncEntry) :
    SyncState :=
  let attempted :=
    { state with
      synced := Function.update state.synced (entry.dName ++ lastSuffix) none }
  match entry.queue with
  | none => attempted
  | some directory =>
      let namelist := scandir directory
      if namelist = [] then attempted
      else
        let nextMinAccept := (attempted.synced entry.dName).getD 0#32
        let fresh := namelist.dropWhile fun file =>
          !startsLike file.dName (idEntry nextMinAccept.toNat)
        if fresh = [] then
          { attempted with
            visits := attempted.visits ++
              [⟨entry.dName, namelist, [], true, attempted.synced entry.dName⟩] }
        else
          let loop := importCases syncing fresh nextMinAccept attempted.execs
          let stored :=
            if loop.cut then attempted.synced entry.dName
            else some loop.nextMinAccept
          { attempted with
            synced := Function.update attempted.synced entry.dName stored
            execs := loop.execs
            visits := attempted.visits ++
              [⟨entry.dName, namelist, loop.imported, !loop.cut, stored⟩] }

/-- The state with the counters `entries` and `synced` of a round. -/
structure SyncRound where
  state : SyncState
  entries : Nat
  synced : Nat

/-- One entry of the sync directory.  Secondary nodes only sync from the main
node; one that stands in for it steps back when there is another. -/
def syncEntry (syncing : Syncing) (round : SyncRound) (entry : SyncEntry) :
    SyncRound :=
  if entry.dName.head? = some '.' ∨ syncing.syncId = entry.dName then round
  else if syncing.isSecondaryNode then
    if round.state.isMainNode then
      let state :=
        if entry.isMainNode then { round.state with isMainNode := false }
        else round.state
      ⟨syncPeer syncing state entry, round.entries + 1, round.synced + 1⟩
    else if entry.isMainNode then
      ⟨syncPeer syncing round.state entry, round.entries + 1, round.synced + 1⟩
    else { round with entries := round.entries + 1 }
  else
    ⟨syncPeer syncing round.state entry, round.entries + 1, round.synced + 1⟩

def syncFuzzers (syncing : Syncing) (state : SyncState)
    (syncDir : List SyncEntry) : SyncState :=
  let round := syncDir.foldl (syncEntry syncing) ⟨state, 0, 0⟩
  if round.synced = 0 ∧ round.entries ≠ 0 ∧ syncing.isSecondaryNode then
    { round.state with isMainNode := true }
  else round.state

/-- Rounds one after the other, each with the sync directory as it is then. -/
def syncRounds (syncing : Syncing) (rounds : List (List SyncEntry))
    (state : SyncState) : SyncState :=
  rounds.foldl (syncFuzzers syncing) state

end AFLPlusPlus
