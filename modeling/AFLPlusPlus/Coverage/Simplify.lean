import AFLPlusPlus.Coverage.NewBits

/-!
# Traces without hit counts

`simplify_trace` leaves only two values in a trace: 1 for a byte that was not
hit and 128 for a byte that was.  A virgin map that is compared with simplified
traces only remembers, for every byte, which of the two it has seen.
-/

namespace AFLPlusPlus

open ByteWord Buffer CoverageMaps

def simplifyLookup (count : BitVec 8) : BitVec 8 :=
  let n := count.toNat
  if n = 0 then 1#8
  else if n < 1 + 255 then 128#8
  else 0#8

/-- One round of the loop of `simplify_trace`. -/
def simplifyTraceRound (width : Nat) (index : Nat) (bytes : Buffer) : Buffer :=
  let mem := loadWord width bytes index
  if mem ≠ 0#(8 * width) then
    storeWord width bytes index
      (ofBytes width fun offset => simplifyLookup (byte mem offset))
  else storeWord width bytes index (ofBytes width fun _ => 0x01#8)

/-- `simplify_trace` of either flavour. -/
def simplifyTrace (flavour : WordSize) (afl : CoverageMaps) : CoverageMaps :=
  { afl with
    traceBits := forRange (simplifyTraceRound flavour.bytes)
      (afl.mapSize / flavour.bytes) afl.traceBits }

theorem simplifyLookup_eq (count : BitVec 8) :
    simplifyLookup count = if count = 0#8 then 1#8 else 128#8 := by
  have bounded := count.isLt
  by_cases zero : count = 0#8
  · subst count
    rfl
  · have nonzero : count.toNat ≠ 0 := fun isZero =>
      zero (BitVec.eq_of_toNat_eq isZero)
    have below : count.toNat < 1 + 255 := by omega
    rw [simplifyLookup, if_neg nonzero, if_pos below, if_neg zero]

/-- The trace with only the difference between hit and not hit below `size`. -/
def hitOrNot (size : Nat) (trace : Buffer) : Buffer :=
  fun address =>
    if address < size then
      if trace address = 0#8 then 1#8 else 128#8
    else trace address

private theorem simplifyTraceRound_hitOrNot {width : Nat}
    (positive : 0 < width) (trace : Buffer) (index : Nat) :
    simplifyTraceRound width index (hitOrNot (width * index) trace) =
      hitOrNot (width * (index + 1)) trace := by
  have traceBytes : ∀ offset < width,
      byte (loadWord width (hitOrNot (width * index) trace) index) offset =
        trace (width * index + offset) := by
    intro offset inside
    have after : ¬width * index + offset < width * index := by omega
    rw [byte_loadWord _ _ inside, hitOrNot, if_neg after]
  -- Both branches store the same bytes: the second one a 1 for every zero.
  have stored : ∀ word : BitVec (8 * width),
      (∀ offset < width, byte word offset =
        if trace (width * index + offset) = 0#8 then 1#8 else 128#8) →
      storeWord width (hitOrNot (width * index) trace) index word =
        hitOrNot (width * (index + 1)) trace := by
    intro word bytes
    funext address
    rw [storeWord_bytewise _ _ _
      (fun address => if trace address = 0#8 then 1#8 else 128#8) positive
      bytes]
    by_cases here : address / width = index
    · have inside := ((address_range _ _ positive).mp here).2
      rw [if_pos here, hitOrNot, if_pos inside]
    · have same : address < width * index ↔ address < width * (index + 1) := by
        have range := address_range address index positive
        rw [Nat.mul_succ] at *
        omega
      simp only [hitOrNot, here, if_false, same]
  unfold simplifyTraceRound
  by_cases hit : loadWord width (hitOrNot (width * index) trace) index ≠ 0#(8 * width)
  · rw [if_pos hit]
    apply stored
    intro offset inside
    rw [byte_ofBytes _ inside, simplifyLookup_eq, traceBytes offset inside]
  · rw [if_neg hit]
    apply stored
    intro offset inside
    have zero : trace (width * index + offset) = 0#8 := by
      rw [← traceBytes offset inside, not_not.mp hit, byte_zero]
    rw [byte_ofBytes _ inside, if_pos zero]

theorem simplifyTrace_eq (flavour : WordSize) (afl : CoverageMaps) :
    simplifyTrace flavour afl =
      { afl with traceBits := hitOrNot afl.mapSize afl.traceBits } := by
  have run := forRange_invariant
    (simplifyTraceRound flavour.bytes)
    (fun index trace => trace = hitOrNot (flavour.bytes * index) afl.traceBits)
    afl.traceBits
    (by funext address; simp [hitOrNot])
    (afl.mapSize / flavour.bytes)
    (fun index _ trace reached => by
      rw [reached]
      exact simplifyTraceRound_hitOrNot flavour.bytes_pos afl.traceBits index)
  rw [afl.wordCount_exact flavour] at run
  rw [simplifyTrace, run]

/-- The map tells for every byte below `size` whether one of the traces missed
it and whether one of them hit it. -/
def Remembers (size : Nat) (traces : List Buffer) (virgin : Buffer) : Prop :=
  ∀ address < size, virgin address =
    (if ∃ trace ∈ traces, trace address = 0#8 then 0xfe#8 else 0xff#8) &&&
      (if ∃ trace ∈ traces, trace address ≠ 0#8 then 0x7f#8 else 0xff#8)

/-- Some byte below `size` is hit in `trace` but was missed in all the others,
or the other way round. -/
def NewStatus (size : Nat) (traces : List Buffer) (trace : Buffer) : Prop :=
  ∃ address < size, ∀ earlier ∈ traces, (earlier address = 0#8 ↔ trace address ≠ 0#8)

namespace Remembers

variable {size : Nat} {traces : List Buffer} {virgin : Buffer}

theorem start (size : Nat) (virgin : Buffer)
    (pristine : ∀ address < size, virgin address = 0xff#8) :
    Remembers size [] virgin := by
  intro address inside
  rw [pristine address inside]
  simp

theorem newBits (remembers : Remembers size traces virgin)
    (trace : Buffer) :
    newBitsVerdict size (hitOrNot size trace) virgin ≠ 0 ↔
      NewStatus size traces trace := by
  have byteCase : ∀ address < size,
      (NewCount (hitOrNot size trace) virgin address ↔
        ∀ earlier ∈ traces, (earlier address = 0#8 ↔ trace address ≠ 0#8)) := by
    intro address inside
    rw [NewCount, hitOrNot, if_pos inside, remembers address inside]
    by_cases hit : trace address = 0#8
    · by_cases missed : ∃ earlier ∈ traces, earlier address = 0#8
      · rw [if_pos hit, if_pos missed]
        obtain ⟨earlier, member, zero⟩ := missed
        have seen : ¬∀ earlier ∈ traces,
            (earlier address = 0#8 ↔ trace address ≠ 0#8) := fun all =>
          (all earlier member).mp zero hit
        refine iff_of_false ?_ seen
        split <;> decide
      · rw [if_pos hit, if_neg missed]
        refine iff_of_true ?_ ?_
        · split <;> decide
        · intro earlier member
          exact iff_of_false (fun zero => missed ⟨earlier, member, zero⟩)
            (not_not.mpr hit)
    · by_cases found : ∃ earlier ∈ traces, earlier address ≠ 0#8
      · rw [if_neg hit, if_pos found]
        obtain ⟨earlier, member, nonzero⟩ := found
        have seen : ¬∀ earlier ∈ traces,
            (earlier address = 0#8 ↔ trace address ≠ 0#8) := fun all =>
          nonzero ((all earlier member).mpr hit)
        refine iff_of_false ?_ seen
        split <;> decide
      · rw [if_neg hit, if_neg found]
        refine iff_of_true ?_ ?_
        · split <;> decide
        · intro earlier member
          exact iff_of_true (by
            by_contra nonzero
            exact found ⟨earlier, member, nonzero⟩) hit
  have verdict : newBitsVerdict size (hitOrNot size trace) virgin ≠ 0 ↔
      ∃ address < size, NewCount (hitOrNot size trace) virgin address := by
    unfold newBitsVerdict
    split
    · rename_i tuple
      obtain ⟨address, inside, tuple⟩ := tuple
      exact iff_of_true (by decide) ⟨address, inside, tuple.newCount⟩
    · split
      · rename_i count
        exact iff_of_true (by decide) count
      · rename_i noCount
        exact iff_of_false (by decide) noCount
  rw [verdict]
  exact exists_congr fun address => and_congr_right fun inside =>
    byteCase address inside

theorem compare (remembers : Remembers size traces virgin)
    (trace : Buffer) :
    Remembers size (traces ++ [trace])
      (clearSeen size (hitOrNot size trace) virgin) := by
  intro address inside
  have grown : ∀ status : Buffer → Prop,
      (∃ earlier ∈ traces ++ [trace], status earlier) ↔
        (∃ earlier ∈ traces, status earlier) ∨ status trace := by
    intro status
    simp only [List.mem_append, List.mem_singleton, or_and_right, exists_or,
      exists_eq_left]
  rw [clearSeen, if_pos inside, hitOrNot, if_pos inside, remembers address inside]
  simp only [grown]
  by_cases hit : trace address = 0#8
  · simp only [hit, ne_eq, not_true_eq_false, or_false, or_true, if_true]
    split <;> split <;> decide
  · simp only [hit, ne_eq, not_false_eq_true, or_false, or_true, if_true, if_false]
    split <;> split <;> decide

end Remembers

end AFLPlusPlus
