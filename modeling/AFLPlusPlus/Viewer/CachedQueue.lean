import AFLPlusPlus.Support.Transitions
import AFLPlusPlus.Viewer.Profile

/-!
# The cached queue of the server

`CachedQueue.get` reads the queue directory while afl-fuzz adds files to it and
trims others.  Each file is read once and kept in a map under its name.  The
moves of the fuzzer and the reads of all calls may come in any order.
-/

namespace AFLPlusPlus.Viewer

variable {Content : Type}

structure QueueItem (Content : Type) where
  filename : String
  base64 : Content
  deriving DecidableEq

/-- An element of the array that `Promise.all` waits for. -/
inductive Slot (Content : Type)
  | settled (item : QueueItem Content)
  | reading (filename : String)

def Slot.filename : Slot Content → String
  | .settled item => item.filename
  | .reading filename => filename

def Slot.done : Slot Content → Option (QueueItem Content)
  | .settled item => some item
  | .reading _ => none

/-- A call of `get`.  `witnessed` is for the statements only: it collects what
the files have held since the call began. -/
structure GetCall (Content : Type) where
  directory : List String
  data : List (Slot Content)
  rejected : Bool
  witnessed : List (String × Content)

/-- What the call returns, once every promise is fulfilled. -/
def GetCall.result (call : GetCall Content) : Option (List (QueueItem Content)) :=
  if call.rejected then none else call.data.mapM Slot.done

structure QueueServer (Content : Type) where
  /-- the files of the queue directory -/
  files : List (String × Content)
  cache : String → Option (QueueItem Content)
  calls : List (GetCall Content)

inductive QueueMove (Content : Type)
  /-- afl-fuzz creates a file -/
  | create (filename : String) (content : Content)
  /-- a file has other content after a write or a truncation -/
  | write (filename : String) (content : Content)
  /-- `trim_case` removes a file before it creates it again -/
  | unlink (filename : String)
  /-- a call of `get` lists the directory and starts its reads -/
  | get
  /-- a read of a call ends -/
  | read (call slot : Nat)

namespace QueueServer

def filenames (server : QueueServer Content) : List String := server.files.map Prod.fst

/-- New files, which every call witnesses. -/
def setFiles (server : QueueServer Content) (files : List (String × Content)) :
    QueueServer Content :=
  { server with
    files := files
    calls := server.calls.map fun call =>
      { call with witnessed := call.witnessed ++ files } }

/-- `filename => this.cache.get(filename) ?? fs.readFile(...)` -/
def slotFor (server : QueueServer Content) (filename : String) : Slot Content :=
  match server.cache filename with
  | some item => .settled item
  | none => .reading filename

/-- The first part of `get`, up to `Promise.all`. -/
def startGet (server : QueueServer Content) : GetCall Content :=
  let directory := server.filenames
  let queue := directory.filter fun filename => !startsWith filename "."
  ⟨directory, queue.map server.slotFor, false, server.files⟩

/-- A read ends with the content of the file, or fails if there is no file. -/
def endRead (server : QueueServer Content) (position : Nat)
    (call : GetCall Content) (slot : Nat) (filename : String) :
    QueueServer Content :=
  match server.files.lookup filename with
  | none =>
      { server with
        calls := server.calls.set position { call with rejected := true } }
  | some content =>
      let item : QueueItem Content := ⟨filename, content⟩
      { server with
        cache := fun other =>
          if other = filename then some item else server.cache other
        calls := server.calls.set position
          { call with data := call.data.set slot (.settled item) } }

def step (move : QueueMove Content) (server : QueueServer Content) :
    Option (QueueServer Content) :=
  match move with
  | .create filename content =>
      if filename ∈ server.filenames then none
      else some (server.setFiles (server.files ++ [(filename, content)]))
  | .write filename content =>
      if filename ∈ server.filenames then
        some (server.setFiles (server.files.map fun file =>
          if file.1 = filename then (filename, content) else file))
      else none
  | .unlink filename =>
      some (server.setFiles (server.files.filter fun file => file.1 ≠ filename))
  | .get => some { server with calls := server.calls ++ [server.startGet] }
  | .read position slot =>
      match server.calls[position]? with
      | none => none
      | some call =>
          match call.data[slot]? with
          | some (.reading filename) =>
              some (server.endRead position call slot filename)
          | _ => none

end QueueServer

/-- Every promise of the call can be fulfilled, and a result has each listed
file once, with content that the file has held since the call began. -/
structure GetCall.Current (call : GetCall Content) : Prop where
  accepted : call.rejected = false
  result : ∀ items, call.result = some items →
    items.map QueueItem.filename =
        call.directory.filter (fun filename => !startsWith filename ".") ∧
      (items.map QueueItem.filename).Nodup ∧
      ∀ item ∈ items, (item.filename, item.base64) ∈ call.witnessed

/-- afl-fuzz changes or removes only files that no call has read or is about to
read. -/
def QueueMove.Unread (server : QueueServer Content) : QueueMove Content → Prop
  | .write filename _ | .unlink filename =>
      server.cache filename = none ∧
        ∀ call ∈ server.calls, .reading filename ∉ call.data
  | _ => True

/-- The slots of a call fit the files. -/
structure GetCall.Fits (call : GetCall Content)
    (files : List (String × Content)) : Prop where
  accepted : call.rejected = false
  names : call.data.map Slot.filename =
    call.directory.filter fun filename => !startsWith filename "."
  distinct : call.directory.Nodup
  settled : ∀ item, .settled item ∈ call.data →
    (item.filename, item.base64) ∈ call.witnessed
  reading : ∀ filename, .reading filename ∈ call.data → filename ∈ files.map Prod.fst
  witnessed : ∀ file ∈ files, file ∈ call.witnessed

theorem mapM_done {data : List (Slot Content)}
    {items : List (QueueItem Content)}
    (all : data.mapM Slot.done = some items) :
    data = items.map .settled := by
  induction data generalizing items with
  | nil =>
      obtain rfl := Option.some.inj all
      rfl
  | cons slot data induction =>
      rw [List.mapM_cons] at all
      cases slot with
      | reading filename => cases all
      | settled item =>
          obtain ⟨first, isFirst, all⟩ := Option.bind_eq_some_iff.mp all
          obtain ⟨rest, isRest, same⟩ := Option.bind_eq_some_iff.mp all
          obtain rfl := Option.some.inj isFirst
          obtain rfl := Option.some.inj same
          rw [List.map_cons, induction isRest]

theorem GetCall.Fits.current {call : GetCall Content}
    {files : List (String × Content)} (fits : call.Fits files) :
    call.Current := by
  refine ⟨fits.accepted, ?_⟩
  intro items isResult
  have slots : call.data = items.map .settled := by
    rw [GetCall.result, fits.accepted] at isResult
    exact mapM_done isResult
  have names : items.map QueueItem.filename =
      call.directory.filter fun filename => !startsWith filename "." := by
    rw [← fits.names, slots, List.map_map]
    rfl
  refine ⟨names, ?_, ?_⟩
  · rw [names]
    exact fits.distinct.filter _
  · intro item member
    apply fits.settled
    rw [slots]
    exact List.mem_map_of_mem member

variable {server : QueueServer Content}

namespace QueueServer

/-- The cache and the calls fit the files. -/
structure Fresh (server : QueueServer Content) : Prop where
  distinct : server.filenames.Nodup
  cached : ∀ filename item, server.cache filename = some item →
    item.filename = filename ∧ (filename, item.base64) ∈ server.files
  calls : ∀ call ∈ server.calls, call.Fits server.files

section

variable (fresh : server.Fresh)
include fresh

/-- New files that keep the cached ones and the names that are to be read. -/
theorem Fresh.setFiles {files : List (String × Content)}
    (distinct : (files.map Prod.fst).Nodup)
    (cached : ∀ filename item, server.cache filename = some item →
      (filename, item.base64) ∈ server.files →
      (filename, item.base64) ∈ files) (reading : ∀ call ∈ server.calls, ∀ filename,
      .reading filename ∈ call.data → filename ∈ server.filenames →
      filename ∈ files.map Prod.fst) :
    (server.setFiles files).Fresh := by
  refine ⟨distinct, ?_, ?_⟩
  · intro filename item isCached
    obtain ⟨same, member⟩ := fresh.cached filename item isCached
    exact ⟨same, cached filename item isCached member⟩
  · intro call' member
    obtain ⟨call, inCalls, rfl⟩ := List.mem_map.mp member
    have fits := fresh.calls call inCalls
    refine ⟨fits.accepted, fits.names, fits.distinct, ?_, ?_, ?_⟩
    · intro item settled
      exact List.mem_append_left _ (fits.settled item settled)
    · intro filename isReading
      exact reading call inCalls filename isReading
        (fits.reading filename isReading)
    · intro file isFile
      exact List.mem_append_right _ isFile

theorem Fresh.get : server.startGet.Fits server.files := by
  have slots : ∀ filename, (server.slotFor filename).filename = filename := by
    intro filename
    unfold slotFor
    cases cached : server.cache filename with
    | none => rfl
    | some item => exact (fresh.cached filename item cached).1
  refine ⟨rfl, ?_, fresh.distinct, ?_, ?_, fun file member => member⟩
  · change (List.map server.slotFor _).map Slot.filename = _
    rw [List.map_map]
    exact List.map_id'' slots _
  · intro item member
    obtain ⟨filename, _, isSlot⟩ := List.mem_map.mp member
    unfold slotFor at isSlot
    split at isSlot
    · rename_i cached isCached
      obtain rfl := Slot.settled.inj isSlot
      obtain ⟨same, isFile⟩ := fresh.cached filename cached isCached
      rw [same]
      exact isFile
    · cases isSlot
  · intro filename member
    obtain ⟨listed, inQueue, isSlot⟩ := List.mem_map.mp member
    have same : listed = filename := by
      rw [← slots listed, isSlot]
      rfl
    rw [← same]
    exact (List.mem_filter.mp inQueue).1

/-- A read finds its file and stores what every later call may have. -/
theorem Fresh.endRead {position slot : Nat} {call : GetCall Content} {filename : String}
    (isCall : server.calls[position]? = some call)
    (isSlot : call.data[slot]? = some (.reading filename)) :
    (server.endRead position call slot filename).Fresh := by
  have fits := fresh.calls call (List.mem_of_getElem? isCall)
  have named := fits.reading filename (List.mem_of_getElem? isSlot)
  unfold QueueServer.endRead
  split
  · rename_i missing
    obtain ⟨file, isFile, same⟩ := List.mem_map.mp named
    have absent := List.lookup_eq_none_iff.mp missing file isFile
    exact absurd same.symm (bne_iff_ne.mp absent)
  · rename_i content found
    have isFile : (filename, content) ∈ server.files := by
      obtain ⟨_, _, split, _⟩ := List.lookup_eq_some_iff.mp found
      rw [split]
      exact List.mem_append_right _ List.mem_cons_self
    refine ⟨fresh.distinct, ?_, ?_⟩
    · intro other item isCached
      dsimp only at isCached
      split at isCached
      · rename_i same
        obtain rfl := Option.some.inj isCached
        rw [same]
        exact ⟨rfl, isFile⟩
      · exact fresh.cached other item isCached
    · intro other member
      rcases List.mem_or_eq_of_mem_set member with old | rfl
      · exact fresh.calls other old
      · refine ⟨fits.accepted, ?_, fits.distinct, ?_, ?_, fits.witnessed⟩
        · rw [← fits.names]
          change (call.data.set slot _).map Slot.filename = _
          have inside := List.getElem?_eq_some_iff.mp isSlot
          obtain ⟨bound, isThere⟩ := inside
          rw [List.map_set]
          apply List.ext_getElem (by rw [List.length_set])
          intro index inSet inMap
          rw [List.getElem_set]
          split
          · rename_i same
            subst same
            rw [List.getElem_map, isThere]
            rfl
          · rfl
        · intro item isSettled
          rcases List.mem_or_eq_of_mem_set isSettled with old | same
          · exact fits.settled item old
          · obtain rfl := Slot.settled.inj same
            exact fits.witnessed _ isFile
        · intro name isReading
          rcases List.mem_or_eq_of_mem_set isReading with old | same
          · exact fits.reading name old
          · cases same

theorem Fresh.step {next : QueueServer Content} {move : QueueMove Content}
    (unread : move.Unread server) (stepped : QueueServer.step move server = some next) :
    next.Fresh := by
  cases move with
  | create filename content =>
      unfold QueueServer.step at stepped
      dsimp only at stepped
      split at stepped
      · cases stepped
      · rename_i new
        obtain rfl := Option.some.inj stepped
        apply fresh.setFiles
        · rw [List.map_append]
          refine List.nodup_append.mpr ⟨fresh.distinct, List.nodup_singleton _, ?_⟩
          rintro name isOld other isNew rfl
          rw [List.mem_singleton.mp isNew] at isOld
          exact new isOld
        · exact fun _ _ _ member => List.mem_append_left _ member
        · intro _ _ name _ member
          rw [List.map_append]
          exact List.mem_append_left _ member
  | write filename content =>
      obtain ⟨notCached, notReading⟩ := unread
      unfold QueueServer.step at stepped
      dsimp only at stepped
      split at stepped
      · obtain rfl := Option.some.inj stepped
        have names : (server.files.map fun file =>
            if file.1 = filename then (filename, content) else file).map
              Prod.fst = server.filenames := by
          rw [List.map_map]
          apply List.map_congr_left
          intro file _
          rw [Function.comp_apply]
          split
          · rename_i same
            exact same.symm
          · rfl
        apply fresh.setFiles
        · rw [names]
          exact fresh.distinct
        · intro name item isCached member
          have other : name ≠ filename := by
            rintro rfl
            rw [notCached] at isCached
            cases isCached
          exact List.mem_map.mpr ⟨_, member, if_neg other⟩
        · intro _ _ name _ member
          rw [names]
          exact member
      · cases stepped
  | unlink filename =>
      obtain ⟨notCached, notReading⟩ := unread
      obtain rfl := Option.some.inj stepped
      apply fresh.setFiles
      · exact fresh.distinct.sublist
          (List.filter_sublist.map Prod.fst)
      · intro name item isCached member
        have other : name ≠ filename := by
          rintro rfl
          rw [notCached] at isCached
          cases isCached
        exact List.mem_filter.mpr ⟨member, decide_eq_true other⟩
      · intro call inCalls name isReading member
        have other : name ≠ filename := by
          rintro rfl
          exact notReading call inCalls isReading
        obtain ⟨file, isFile, rfl⟩ := List.mem_map.mp member
        exact List.mem_map_of_mem
          (List.mem_filter.mpr ⟨isFile, decide_eq_true other⟩)
  | get =>
      obtain rfl := Option.some.inj stepped
      refine ⟨fresh.distinct, fresh.cached, ?_⟩
      intro call member
      rcases List.mem_append.mp member with old | isNew
      · exact fresh.calls call old
      · rw [List.mem_singleton.mp isNew]
        exact fresh.get
  | read position slot =>
      unfold QueueServer.step at stepped
      dsimp only at stepped
      split at stepped
      · cases stepped
      · rename_i call isCall
        split at stepped
        · rename_i filename isSlot
          obtain rfl := Option.some.inj stepped
          exact fresh.endRead isCall isSlot
        · cases stepped

end

/-- A server that has read nothing yet. -/
structure Started (server : QueueServer Content) : Prop where
  distinct : server.filenames.Nodup
  cache : ∀ filename, server.cache filename = none
  calls : server.calls = []

theorem Started.fresh (started : server.Started) : server.Fresh := by
  refine ⟨started.distinct, ?_, ?_⟩
  · intro filename item isCached
    rw [started.cache filename] at isCached
    cases isCached
  · intro call member
    rw [started.calls] at member
    exact absurd member List.not_mem_nil

/-- As long as afl-fuzz leaves the files alone that were read or are about to
be read, every call returns what the directory holds. -/
theorem get_current {server reached : QueueServer Content}
    {moves : List (QueueMove Content)} (started : server.Started)
    (unread : MovesMeet step (fun server move => move.Unread server) moves server)
    (runs : runMoves step moves server = some reached) :
    ∀ call ∈ reached.calls, call.Current := by
  have fresh : reached.Fresh := runMoves_invariant_of_meets Fresh
    (fun move server next fresh meets stepped => fresh.step meets stepped)
    started.fresh unread runs
  exact fun call member => (fresh.calls call member).current

def oneFile : QueueServer String where
  files := [("id:000000", "aaaa")]
  cache := fun _ => none
  calls := []

theorem oneFile_started : oneFile.Started := ⟨by decide, fun _ => rfl, rfl⟩

/-- The second file is written before a call lists it. -/
def addedFile : List (QueueMove String) :=
  [.get, .read 0 0, .create "id:000001" "b", .write "id:000001" "bb", .get, .read 1 1]

theorem addedFile_unread :
    MovesMeet step (fun server move => move.Unread server) addedFile
      oneFile := by
  refine ⟨trivial, ?_⟩
  rintro _ ⟨⟩
  refine ⟨trivial, ?_⟩
  rintro _ ⟨⟩
  refine ⟨trivial, ?_⟩
  rintro _ ⟨⟩
  refine ⟨⟨rfl, ?_⟩, ?_⟩
  · intro call member reading
    rw [List.mem_singleton.mp member] at reading
    cases List.mem_singleton.mp reading
  rintro _ ⟨⟩
  refine ⟨trivial, ?_⟩
  rintro _ ⟨⟩
  refine ⟨trivial, ?_⟩
  rintro _ ⟨⟩
  trivial

theorem get_current_addedFile : ∃ reached,
    runMoves step addedFile oneFile = some reached ∧
      ∀ call ∈ reached.calls, call.Current :=
  ⟨_, rfl, get_current oneFile_started addedFile_unread rfl⟩

/-- A file is read, then trimmed, and the second call returns the old
content. -/
theorem get_stale_after_trim :
    ¬∀ (server reached : QueueServer String) (moves : List (QueueMove String)),
      server.Started → runMoves step moves server = some reached →
        ∀ call ∈ reached.calls, call.Current := by
  intro always
  have current := always oneFile _ [.get, .read 0 0, .unlink "id:000000",
    .create "id:000000" "aa", .get] oneFile_started rfl
    ⟨["id:000000"], [.settled ⟨"id:000000", "aaaa"⟩], false,
      [("id:000000", "aa")]⟩ (List.mem_cons_of_mem _ List.mem_cons_self)
  obtain ⟨_, _, contents⟩ := current.result [⟨"id:000000", "aaaa"⟩] rfl
  have held := contents _ List.mem_cons_self
  exact absurd held (by decide)

end QueueServer

end AFLPlusPlus.Viewer
