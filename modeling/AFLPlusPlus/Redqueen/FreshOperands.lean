import AFLPlusPlus.Redqueen.CmplogHooks

/-!
# Operands that were not logged

The log is not cleared before the second run, and a hook stores only the bytes
of its own values.  What the stage uses is new exactly if each slot of the last
series of a location has been stored as far as the widest hook of the series
stores.
-/

namespace AFLPlusPlus.Redqueen

/-- The last series of hooks of one type at a location, and how far a run has
stored into each cell of 32 bytes of its log. -/
structure Trace where
  type : Option CmpType
  length : Nat
  widest : Nat
  reach : Nat → Nat

namespace Trace

def start : Trace := ⟨none, 0, 0, fun _ => 0⟩

def place (trace : Trace) (type : CmpType) : Nat :=
  if trace.type = some type then trace.length else 0

def next (trace : Trace) (logged : Logged) : Trace where
  type := some logged.type
  length := trace.place logged.type + 1
  widest :=
    if trace.type = some logged.type then max trace.widest logged.size
    else logged.size
  reach := logged.stores (trace.place logged.type) trace.reach

/-- The slots of the last series have been stored as far as its widest hook
stores.  The field `hits` counts modulo `2 ^ 24`. -/
def StoredWidely (trace : Trace) : Prop :=
  match trace.type with
  | none => True
  | some .ins =>
      7 < trace.widest → ∀ slot < min (trace.length % 16777216) cmpMapH,
        trace.widest + 17 ≤ trace.reach slot
  | some .rtn =>
      ∀ slot < min (trace.length % 16777216) cmpMapRtnH,
        trace.widest + 1 ≤ trace.reach (2 * slot) ∧
          trace.widest + 1 ≤ trace.reach (2 * slot + 1)

end Trace

def advance (traces : Nat → Trace) (logged : Logged) : Nat → Trace :=
  Function.update traces logged.key ((traces logged.key).next logged)

@[simp]
theorem advance_self (traces : Nat → Trace) (logged : Logged) :
    advance traces logged logged.key = (traces logged.key).next logged := by
  simp [advance]

theorem advance_of_ne (traces : Nat → Trace) {logged : Logged} {key : Nat}
    (elsewhere : key ≠ logged.key) :
    advance traces logged key = traces key := by
  simp [advance, elsewhere]

def traces (logged : List Logged) : Nat → Trace := logged.foldl advance fun _ => .start

/-- The header that belongs to a series. -/
structure CmpHeader.Counts (header : CmpHeader) (trace : Trace) : Prop where
  hits : header.hits = BitVec.ofNat 24 trace.length
  shape : header.shape.toNat = trace.widest
  type : header.type = trace.type.elim 0 CmpType.number

theorem CmpType.number_inj {type other : CmpType} :
    type.number = other.number ↔ type = other := by
  cases type <;> cases other <;> decide

section

variable {header : CmpHeader} {trace : Trace} (counts : header.Counts trace)
    (type : CmpType)
include counts type

theorem CmpHeader.Counts.type_eq_iff :
    header.type = type.number ↔ trace.type = some type := by
  rw [counts.type]
  cases trace.type with
  | none => cases type <;> decide
  | some other =>
      exact CmpType.number_inj.trans (by simp)

theorem CmpHeader.Counts.hitsBefore_eq :
    header.hitsBefore type = trace.place type % 16777216 := by
  rw [CmpHeader.hitsBefore, Trace.place]
  by_cases same : trace.type = some type
  · rw [if_neg (not_not.mpr ((counts.type_eq_iff type).mpr same)),
      if_pos same, counts.hits, BitVec.toNat_ofNat]
  · rw [if_pos fun equal => same ((counts.type_eq_iff type).mp equal), if_neg same]

end

/-- Both tests of the shape keep the greater one. -/
theorem CmpHeader.Counts.hit {header : CmpHeader} {trace : Trace}
    (counts : header.Counts trace) (logged : Logged) {below : Nat}
    (fits : logged.size < 32) (least : logged.size ≤ below)
    (most : below ≤ logged.size + 1) :
    (header.hit logged.type logged.size below).Counts
      (trace.next logged) := by
  have size : (BitVec.ofNat 5 logged.size).toNat = logged.size := by
    rw [BitVec.toNat_ofNat, Nat.mod_eq_of_lt fits]
  rw [CmpHeader.hit]
  by_cases same : trace.type = some logged.type
  · rw [if_neg (not_not.mpr ((counts.type_eq_iff _).mpr same))]
    refine ⟨?_, ?_, ?_⟩
    · simp [Trace.next, Trace.place, same, counts.hits, BitVec.ofNat_add]
    · have shape := counts.shape
      simp only [Trace.next, if_pos same]
      split
      · rw [size]
        omega
      · omega
    · simpa [Trace.next] using (counts.type_eq_iff _).mpr same
  · rw [if_pos fun equal => same ((counts.type_eq_iff _).mp equal)]
    refine ⟨?_, ?_, ?_⟩
    · simp [Trace.next, Trace.place, same]
    · simpa [Trace.next, same] using size
    · simp [Trace.next]

namespace Logged

def store (place : Nat) (memory : Buffer) : Logged → Buffer
  | .ins _ size _ arg1 arg2 =>
      memory.storeBytes (32 * (place % cmpMapH))
        (operandBytes size arg1 arg2)
  | .rtn _ size ptr1 ptr2 =>
      (memory.storeBytes (64 * (place % cmpMapRtnH))
        (ptr1.loadBytes 0 (size + 1))).storeBytes
          (64 * (place % cmpMapRtnH) + 32) (ptr2.loadBytes 0 (size + 1))

variable (logged : Logged)

theorem store_mod (place : Nat) (memory : Buffer) :
    logged.store (place % 16777216) memory = logged.store place memory := by
  cases logged with
  | ins =>
      rw [store, store, Nat.mod_mod_of_dvd place (by decide)]
  | rtn =>
      rw [store, store, Nat.mod_mod_of_dvd place (by decide)]

theorem length_operandBytes (size : Fin 16) (arg1 arg2 : BitVec 128) :
    (operandBytes size arg1 arg2).length = if 7 < size then 32 else 16 := by
  unfold operandBytes
  split <;> simp

theorem length_operandBytes_le (size : Fin 16) (arg1 arg2 : BitVec 128) :
    (operandBytes size arg1 arg2).length ≤ 32 := by
  rw [length_operandBytes]
  split <;> decide

theorem length_loadBytes_le (ptr : Buffer) (size : Fin 32) :
    (ptr.loadBytes 0 (size + 1)).length ≤ 32 := by
  rw [Buffer.length_loadBytes]
  exact size.isLt

/-- A slot of a routine is two cells. -/
theorem store_rtn (place key : Nat) (size : Fin 32)
    (ptr1 ptr2 memory : Buffer) :
    (Logged.rtn key size ptr1 ptr2).store place memory =
      (memory.storeBytes (32 * (2 * (place % cmpMapRtnH)))
        (ptr1.loadBytes 0 (size + 1))).storeBytes
          (32 * (2 * (place % cmpMapRtnH) + 1))
          (ptr2.loadBytes 0 (size + 1)) := by
  rw [store, show 64 * (place % cmpMapRtnH) = 32 * (2 * (place % cmpMapRtnH)) by omega]
  rfl

theorem store_agrees {reach : Nat → Nat} {memory other : Buffer}
    (agrees : Buffer.AgreesUpTo 32 reach memory other) (place : Nat) :
    Buffer.AgreesUpTo 32 (logged.stores place reach)
      (logged.store place memory) (logged.store place other) := by
  cases logged with
  | ins key size attr arg1 arg2 =>
      rw [stores, ← length_operandBytes size arg1 arg2]
      exact agrees.storeBytes (length_operandBytes_le size arg1 arg2) _
  | rtn key size ptr1 ptr2 =>
      have first := agrees.storeBytes
        (length_loadBytes_le ptr1 size) (2 * (place % cmpMapRtnH))
      have second := first.storeBytes
        (length_loadBytes_le ptr2 size) (2 * (place % cmpMapRtnH) + 1)
      rw [store_rtn, store_rtn]
      simpa [stores] using second

theorem store_keeps {reach : Nat → Nat} {memory before : Buffer}
    (keeps : Buffer.KeepsFrom 32 reach memory before) (place : Nat) :
    Buffer.KeepsFrom 32 (logged.stores place reach)
      (logged.store place memory) before := by
  cases logged with
  | ins key size attr arg1 arg2 =>
      rw [stores, ← length_operandBytes size arg1 arg2]
      exact keeps.storeBytes (length_operandBytes_le size arg1 arg2) _
  | rtn key size ptr1 ptr2 =>
      have first := keeps.storeBytes
        (length_loadBytes_le ptr1 size) (2 * (place % cmpMapRtnH))
      have second := first.storeBytes
        (length_loadBytes_le ptr2 size) (2 * (place % cmpMapRtnH) + 1)
      rw [store_rtn]
      simpa [stores] using second

end Logged

namespace CmpMap

variable {map other before : CmpMap} {trace : Trace} {key : Nat}

theorem record_headers (map : CmpMap) (logged : Logged) :
    ∃ header : CmpHeader,
      (map.record logged).headers = Function.update map.headers logged.key header ∧
      ∀ trace, (map.headers logged.key).Counts trace →
        header.Counts (trace.next logged) := by
  cases logged with
  | ins key size attr arg1 arg2 =>
      refine ⟨_, rfl, fun trace counts => ?_⟩
      have hit := counts.hit (.ins key size attr arg1 arg2)
        (show size.val < 32 by omega) (Nat.le_refl _) (Nat.le_succ _)
      exact ⟨hit.hits, hit.shape, hit.type⟩
  | rtn key size ptr1 ptr2 =>
      exact ⟨_, rfl, fun trace counts =>
        counts.hit (.rtn key size ptr1 ptr2) size.isLt (Nat.le_succ _)
          (Nat.le_refl _)⟩

theorem record_log (map : CmpMap) (logged : Logged)
    (counts : (map.headers logged.key).Counts trace) :
    (map.record logged).log = Function.update map.log logged.key
      (logged.store (trace.place logged.type) (map.log logged.key)) := by
  rw [← logged.store_mod, ← counts.hitsBefore_eq]
  cases logged with
  | ins => rfl
  | rtn => rfl

/-- Two maps behind the same hooks, and one of them before. -/
structure Follows (map other before : CmpMap) (key : Nat) (trace : Trace) : Prop where
  counts : (map.headers key).Counts trace
  otherCounts : (other.headers key).Counts trace
  agrees : Buffer.AgreesUpTo 32 trace.reach (map.log key) (other.log key)
  keeps : Buffer.KeepsFrom 32 trace.reach (map.log key) (before.log key)

theorem Follows.record {traces : Nat → Trace} (logged : Logged)
    (follows : ∀ key, Follows map other before key (traces key)) (key : Nat) :
    Follows (map.record logged) (other.record logged) before key
      (advance traces logged key) := by
  have here := follows logged.key
  obtain ⟨header, headers, counts⟩ := record_headers map logged
  obtain ⟨header', headers', counts'⟩ := record_headers other logged
  by_cases same : key = logged.key
  · subst same
    rw [advance_self]
    refine ⟨?_, ?_, ?_, ?_⟩
    · simpa [headers] using counts _ here.counts
    · simpa [headers'] using counts' _ here.otherCounts
    · simpa [record_log map logged here.counts,
        record_log other logged here.otherCounts, Trace.next] using
        logged.store_agrees here.agrees _
    · simpa [record_log map logged here.counts, Trace.next] using
        logged.store_keeps here.keeps _
  · have elsewhere := follows key
    rw [advance_of_ne traces same]
    refine ⟨?_, ?_, ?_, ?_⟩
    · simpa [headers, same] using elsewhere.counts
    · simpa [headers', same] using elsewhere.otherCounts
    · simpa [record_log map logged here.counts,
        record_log other logged here.otherCounts, same] using
        elsewhere.agrees
    · simpa [record_log map logged here.counts, same] using elsewhere.keeps

theorem colorizedRun_follows (map other : CmpMap) (calls : List HookCall)
    (key : Nat) :
    Follows (map.colorizedRun calls) (other.colorizedRun calls) map key
      (traces (loggedBy calls) key) := by
  have cleared : ∀ key, Follows
      { map with headers := fun _ => CmpHeader.cleared }
      { other with headers := fun _ => CmpHeader.cleared } map key .start := by
    intro key
    refine ⟨⟨rfl, rfl, rfl⟩, ⟨rfl, rfl, rfl⟩, ?_, ?_⟩
    · intro cell i _ stored
      exact absurd stored (Nat.not_lt_zero i)
    · intro cell i _ _
      rfl
  have run : ∀ (logged : List Logged) (map' other' : CmpMap)
      (reached : Nat → Trace),
      (∀ key, Follows map' other' map key (reached key)) →
      ∀ key, Follows (logged.foldl record map') (logged.foldl record other')
        map key (logged.foldl advance reached key) := by
    intro logged
    induction logged with
    | nil => exact fun _ _ _ follows => follows
    | cons logged rest induction =>
        intro map' other' reached follows
        exact induction _ _ _ (Follows.record logged follows)
  exact run (loggedBy calls) _ _ _ cleared key

end CmpMap

/-- A slot that a series of compares has reached holds at least the narrow
values. -/
structure Trace.Sound (trace : Trace) : Prop where
  idle : trace.type = none → trace.length = 0
  widest : trace.widest < 32
  narrow : trace.type = some .ins → trace.widest < 16
  reached : trace.type = some .ins →
    ∀ slot < min trace.length cmpMapH, 16 ≤ trace.reach slot

namespace Trace

variable {trace : Trace}

theorem le_stores (place : Nat) (reach : Nat → Nat) (logged : Logged)
    (cell : Nat) : reach cell ≤ logged.stores place reach cell := by
  cases logged with
  | ins => exact Buffer.le_raise _ _ _ _
  | rtn =>
      exact (Buffer.le_raise _ _ _ _).trans (Buffer.le_raise _ _ _ _)

theorem Sound.reached_ins (sound : trace.Sound) {key : Nat} {size : Fin 16}
    {attr : BitVec 8} {arg1 arg2 : BitVec 128} {slot : Nat}
    (inside : slot < min (trace.place .ins + 1) cmpMapH) :
    16 ≤ (trace.next (.ins key size attr arg1 arg2)).reach slot := by
  by_cases last : slot = trace.place .ins % cmpMapH
  · subst last
    simp only [next, Logged.type, Logged.stores, Buffer.raise_self]
    split <;> omega
  · have earlier : slot < min (trace.place .ins) cmpMapH := by
      unfold cmpMapH at *
      omega
    rw [place] at earlier
    split at earlier
    · exact (sound.reached ‹_› slot earlier).trans
        (le_stores _ _ (.ins key size attr arg1 arg2) slot)
    · omega

theorem Sound.next (sound : trace.Sound) (logged : Logged) :
    (trace.next logged).Sound := by
  have widest := sound.widest
  cases logged with
  | ins key size attr arg1 arg2 =>
      have narrow : (trace.next (.ins key size attr arg1 arg2)).widest <
          16 := by
        have bound := size.isLt
        simp only [Trace.next]
        split
        · have before := sound.narrow ‹_›
          simp only [Logged.size]
          omega
        · exact bound
      exact ⟨nofun, by omega, fun _ => narrow, fun _ slot inside =>
        sound.reached_ins inside⟩
  | rtn key size ptr1 ptr2 =>
      refine ⟨nofun, ?_, nofun, nofun⟩
      have bound := size.isLt
      simp only [Trace.next]
      split
      · simp only [Logged.size]
        omega
      · exact bound

end Trace

theorem traces_sound (logged : List Logged) (key : Nat) :
    (traces logged key).Sound := by
  have start : ∀ _ : Nat, Trace.start.Sound := fun _ =>
    ⟨fun _ => rfl, by decide, nofun, nofun⟩
  have run := List.foldlRecOn
    (motive := fun reached => ∀ key, (reached key).Sound)
    logged advance start (by
      intro reached sound logged _ key
      by_cases same : key = logged.key
      · subst same
        rw [advance_self]
        exact (sound _).next logged
      · rw [advance_of_ne reached same]
        exact sound key)
  exact run key

namespace CmpMap

variable {map other before : CmpMap} {trace : Trace} {key : Nat}

section

variable (follows : Follows map other before key trace)
include follows

theorem Follows.hits_eq : (map.headers key).hits.toNat = trace.length % 16777216 := by
  rw [follows.counts.hits, BitVec.toNat_ofNat]

theorem Follows.not_uses_none (sound : trace.Sound) (type : trace.type = none)
    (offset : Nat) :
    ¬ map.Uses key offset := by
  intro uses
  have hits := follows.hits_eq
  rw [sound.idle type] at hits
  simp only [Uses] at uses
  split at uses
  · obtain ⟨slot, reached, _⟩ := uses
    omega
  · obtain ⟨slot, reached, _⟩ := uses
    omega

/-- The bytes that `cmp_fuzz` uses, in terms of the series. -/
theorem Follows.uses_ins (type : trace.type = some .ins) (offset : Nat) :
    map.Uses key offset ↔
      ∃ slot < min (trace.length % 16777216) cmpMapH,
        ∃ byte < min (trace.widest + 1) 16,
          offset = 32 * slot + operandOffset byte ∨
            offset = 32 * slot + (operandOffset byte + 8) := by
  have compares := (follows.counts.type_eq_iff .ins).mpr type
  simp only [Uses, if_pos compares, follows.hits_eq, shapeBytes, follows.counts.shape]

/-- The bytes that `rtn_fuzz` uses, in terms of the series. -/
theorem Follows.uses_rtn (type : trace.type = some .rtn) (offset : Nat) :
    map.Uses key offset ↔
      ∃ slot < min (trace.length % 16777216) cmpMapRtnH,
        ∃ byte < trace.widest + 1,
          offset = 64 * slot + byte ∨ offset = 64 * slot + (byte + 32) := by
  have routine : (map.headers key).type ≠ CmpType.ins.number := by
    intro compares
    have equal := (follows.counts.type_eq_iff .ins).mp compares
    rw [type] at equal
    cases equal
  simp only [Uses, if_neg routine, follows.hits_eq, shapeBytes, follows.counts.shape]

theorem Follows.agrees_of_storedWidely (sound : trace.Sound) (wide : trace.StoredWidely)
    {offset : Nat} (uses : map.Uses key offset) :
    map.log key offset = other.log key offset := by
  cases type : trace.type with
  | none => exact absurd uses (follows.not_uses_none sound type offset)
  | some type' =>
      cases type' with
      | ins =>
          obtain ⟨slot, reached, byte, within, place⟩ :=
            (follows.uses_ins type offset).mp uses
          have narrow := sound.reached type slot (by omega)
          have stored : 7 < trace.widest → trace.widest + 17 ≤ trace.reach slot := by
            simp only [Trace.StoredWidely, type] at wide
            exact fun wider => wide wider slot reached
          unfold operandOffset at place
          have bound := sound.narrow type
          obtain rfl | rfl := place
          · refine follows.agrees slot _ ?_ ?_
            · split <;> omega
            · split <;> omega
          · refine follows.agrees slot _ ?_ ?_
            · split <;> omega
            · split <;> omega
      | rtn =>
          obtain ⟨slot, reached, byte, within, place⟩ :=
            (follows.uses_rtn type offset).mp uses
          have stored : trace.widest + 1 ≤ trace.reach (2 * slot) ∧
              trace.widest + 1 ≤ trace.reach (2 * slot + 1) := by
            simp only [Trace.StoredWidely, type] at wide
            exact wide slot reached
          have bound := sound.widest
          obtain rfl | rfl := place
          · have first := follows.agrees (2 * slot) byte (by omega)
              (by omega)
            rwa [show 32 * (2 * slot) + byte = 64 * slot + byte by omega]
              at first
          · have second := follows.agrees (2 * slot + 1) byte (by omega)
              (by omega)
            rwa [show 32 * (2 * slot + 1) + byte =
              64 * slot + (byte + 32) by omega] at second

/-- Where a slot has not been stored widely, a byte behind what has been stored
is used. -/
theorem Follows.exists_beyond (sound : trace.Sound) (narrow : ¬ trace.StoredWidely) :
    ∃ cell i, i < 32 ∧ trace.reach cell ≤ i ∧ map.Uses key (32 * cell + i) := by
  cases type : trace.type with
  | none => simp [Trace.StoredWidely, type] at narrow
  | some type' =>
      cases type' with
      | ins =>
          simp only [Trace.StoredWidely, type, not_forall, not_le] at narrow
          obtain ⟨wider, slot, reached, short⟩ := narrow
          have bound := sound.narrow type
          refine ⟨slot, trace.widest + 16, by omega, by omega, ?_⟩
          refine (follows.uses_ins type _).mpr
            ⟨slot, reached, trace.widest, by omega, .inr ?_⟩
          rw [operandOffset, if_neg (by omega)]
      | rtn =>
          simp only [Trace.StoredWidely, type, not_forall, not_and_or,
            not_le] at narrow
          obtain ⟨slot, reached, short⟩ := narrow
          have bound := sound.widest
          obtain first | second := short
          · refine ⟨2 * slot, trace.widest, bound, by omega, ?_⟩
            exact (follows.uses_rtn type _).mpr
              ⟨slot, reached, trace.widest, by omega, .inl (by omega)⟩
          · refine ⟨2 * slot + 1, trace.widest, bound, by omega, ?_⟩
            exact (follows.uses_rtn type _).mpr
              ⟨slot, reached, trace.widest, by omega, .inr (by omega)⟩

end

end CmpMap

def CmpMap.filled (byte : BitVec 8) : CmpMap where
  headers := fun _ => CmpHeader.cleared
  log := fun _ _ => byte

theorem storedWidely_of_readsFresh {calls : List HookCall}
    (fresh : ReadsFresh calls) (key : Nat) :
    (traces (loggedBy calls) key).StoredWidely := by
  by_contra narrow
  have zeros := CmpMap.colorizedRun_follows (.filled 0) (.filled 1) calls key
  have ones := CmpMap.colorizedRun_follows (.filled 1) (.filled 0) calls key
  obtain ⟨cell, i, inside, beyond, uses⟩ :=
    zeros.exists_beyond (traces_sound (loggedBy calls) key) narrow
  have same : (0 : BitVec 8) = 1 :=
    calc (0 : BitVec 8)
        = ((CmpMap.filled 0).colorizedRun calls).log key (32 * cell + i) :=
          (zeros.keeps cell i inside beyond).symm
      _ = ((CmpMap.filled 1).colorizedRun calls).log key (32 * cell + i) :=
          fresh (.filled 0) (.filled 1) key _ uses
      _ = 1 := ones.keeps cell i inside beyond
  exact absurd same (by decide)

/-- The stage uses only what the second run has logged if and only if every
slot of the last series of a location has been stored as far as the widest hook
of the series stores. -/
theorem readsFresh_iff (calls : List HookCall) :
    ReadsFresh calls ↔ ∀ key, (traces (loggedBy calls) key).StoredWidely := by
  constructor
  · exact fun fresh key => storedWidely_of_readsFresh fresh key
  · intro wide map other key offset uses
    exact (CmpMap.colorizedRun_follows map other calls key
      ).agrees_of_storedWidely (traces_sound _ key) (wide key) uses

/-- The second slot is used with 32 bytes and stored with 16. -/
theorem pageEnd_reads_stale : ¬ ReadsFresh pageEnd := by
  intro fresh
  let trace := traces (loggedBy pageEnd) (cmplogKey 0x401000)
  have type : trace.type = some .rtn := by decide
  have widest : trace.widest = 31 := by decide
  have length : trace.length = 2 := by decide
  have reach : trace.reach (2 * 1) = 16 := by decide
  have wide := storedWidely_of_readsFresh fresh (cmplogKey 0x401000)
  have both : trace.widest + 1 ≤ trace.reach (2 * 1) := by
    simp only [Trace.StoredWidely, type, trace] at wide
    exact (wide 1 (by rw [length]; decide)).1
  omega

end AFLPlusPlus.Redqueen
