import AFLPlusPlus.Instrumentation.CompareTransform

/-!
# Memory comparisons

The constant of `memcmp` and `bcmp` comes from a string of LLVM and ends before
the first NUL of the literal.  The chain for `memcmp` compares these bytes as
far as the size reaches; the one for `bcmp` is made as for `strcmp`, with a NUL
behind them and without a look at the size.
-/

namespace AFLPlusPlus

namespace CompareTransform

namespace SelectedCall

variable {width : Nat} (call : SelectedCall width)

theorem signExtend_eq_zero_iff (byte : BitVec 8) :
    byte.signExtend 32 = 0#32 ↔ byte = 0#8 := by
  constructor
  · intro zero
    apply BitVec.eq_of_toInt_eq
    have value := congrArg BitVec.toInt zero
    rw [BitVec.toInt_signExtend_of_le (by decide)] at value
    exact value
  · rintro rfl
    rfl

/-- Whether the byte at an index is the constant there. -/
def Matches (varStr : Nat → BitVec 8) (i : Nat) (constStr : List (BitVec 8))
    (k : Nat) : Prop :=
  ∀ byte, constStr[k]? = some byte → call.fold byte = call.fold (varStr (i + k))

theorem matches_cons_zero (varStr : Nat → BitVec 8) (i : Nat)
    (byte : BitVec 8) (constStr : List (BitVec 8)) :
    call.Matches varStr i (byte :: constStr) 0 ↔
      call.fold byte = call.fold (varStr i) :=
  ⟨fun holds => holds byte rfl, fun same _ found =>
    Option.some.inj found ▸ same⟩

theorem matches_cons_succ (varStr : Nat → BitVec 8) (i k : Nat)
    (byte : BitVec 8) (constStr : List (BitVec 8)) :
    call.Matches varStr i (byte :: constStr) (k + 1) ↔
      call.Matches varStr (i + 1) constStr k := by
  unfold Matches
  rw [List.getElem?_cons_succ, Nat.add_assoc, Nat.add_comm 1]

section

variable (size : BitVec width) (varStr : Nat → BitVec 8) (constStr : List (BitVec 8))
include size varStr constStr

theorem run_phi_eq_zero_iff (i : Nat) :
    (call.run size varStr (call.blocksFrom false i constStr)).phi = 0#32 ↔
      ∀ k < constStr.length, call.Matches varStr i constStr k := by
  induction constStr generalizing i with
  | nil =>
      refine ⟨fun _ k inside => absurd inside (Nat.not_lt_zero k), fun _ => rfl⟩
  | cons byte constStr induction =>
      rw [blocksFrom_cons, run_cmpAdded]
      by_cases same : call.fold byte = call.fold (varStr i)
      · rw [if_pos ((call.isub_eq_zero_iff _ _).mpr same)]
        refine (induction (i + 1)).trans ⟨?_, ?_⟩
        · intro all k inside
          cases k with
          | zero => exact (call.matches_cons_zero varStr i byte constStr).mpr same
          | succ k =>
              exact (call.matches_cons_succ varStr i k byte constStr).mpr
                (all k (Nat.lt_of_succ_lt_succ inside))
        · intro all k inside
          exact (call.matches_cons_succ varStr i k byte constStr).mp
            (all (k + 1) (Nat.succ_lt_succ inside))
      · rw [if_neg (mt (call.isub_eq_zero_iff _ _).mp same),
          signExtend_eq_zero_iff, isub_eq_zero_iff]
        refine ⟨fun equal => absurd equal same, fun all => ?_⟩
        exact (call.matches_cons_zero varStr i byte constStr).mp
          (all 0 (Nat.succ_pos _))

/-- A chain loads the bytes up to the first that does not match. -/
theorem mem_run_loads_iff (i load : Nat) :
    load ∈ (call.run size varStr (call.blocksFrom false i constStr)).loads ↔
      ∃ k < constStr.length, load = i + k ∧
        ∀ j < k, call.Matches varStr i constStr j := by
  induction constStr generalizing i with
  | nil =>
      refine ⟨fun none => absurd none List.not_mem_nil, ?_⟩
      rintro ⟨k, inside, _⟩
      exact absurd inside (Nat.not_lt_zero k)
  | cons byte constStr induction =>
      rw [blocksFrom_cons, run_cmpAdded]
      have first : (∃ k < (byte :: constStr).length, load = i + k ∧
            ∀ j < k, call.Matches varStr i (byte :: constStr) j) ↔
          load = i ∨ (call.fold byte = call.fold (varStr i) ∧
            ∃ k < constStr.length, load = i + 1 + k ∧
              ∀ j < k, call.Matches varStr (i + 1) constStr j) := by
        constructor
        · rintro ⟨k, inside, rfl, all⟩
          cases k with
          | zero => exact .inl rfl
          | succ k =>
              refine .inr ⟨(call.matches_cons_zero varStr i byte constStr).mp
                (all 0 (Nat.succ_pos k)), k, Nat.lt_of_succ_lt_succ inside,
                by omega, fun j before => ?_⟩
              exact (call.matches_cons_succ varStr i j byte constStr).mp
                (all (j + 1) (Nat.succ_lt_succ before))
        · rintro (rfl | ⟨same, k, inside, rfl, all⟩)
          · exact ⟨0, Nat.succ_pos _, rfl, fun j none =>
              absurd none (Nat.not_lt_zero j)⟩
          · refine ⟨k + 1, Nat.succ_lt_succ inside, by omega, ?_⟩
            intro j before
            cases j with
            | zero =>
                exact (call.matches_cons_zero varStr i byte constStr).mpr same
            | succ j =>
                exact (call.matches_cons_succ varStr i j byte constStr).mpr
                  (all j (Nat.lt_of_succ_lt_succ before))
      rw [first]
      by_cases same : call.fold byte = call.fold (varStr i)
      · rw [if_pos ((call.isub_eq_zero_iff _ _).mpr same), List.mem_cons,
          induction (i + 1), and_iff_right same]
      · rw [if_neg (mt (call.isub_eq_zero_iff _ _).mp same), List.mem_singleton]
        exact ⟨.inl, fun either => either.elim id fun later =>
          absurd later.1 same⟩

end

/-- The two buffers agree on the bytes below a bound. -/
def AgreeBelow (literal : List (BitVec 8)) (other : Nat → BitVec 8)
    (bound : Nat) : Prop :=
  ∀ k < bound, literal[k]? = some (other k)

instance (literal : List (BitVec 8)) (other : Nat → BitVec 8) (bound : Nat) :
    Decidable (AgreeBelow literal other bound) :=
  inferInstanceAs (Decidable (∀ k < bound, _))

/-- A chain is zero just when the first bytes agree, and loads bytes below the
size only. -/
def PreservesEquality (blocks : List ChainBlock) (size : BitVec width)
    (literal : List (BitVec 8)) (other : Nat → BitVec 8) (n : Nat) : Prop :=
  ((call.run size other blocks).phi = 0#32 ↔ AgreeBelow literal other n) ∧
    ∀ load ∈ (call.run size other blocks).loads, load < n

/-- What becomes of the equality when some number of bytes is compared. -/
theorem preservesEquality_iff_of_agrees
    (caseSensitive : call.callee.isCaseInsensitive = false)
    (size : BitVec width) (literal : List (BitVec 8)) (other : Nat → BitVec 8)
    {constStr : List (BitVec 8)} {n : Nat}
    (agrees : ∀ k < n, ∀ byte, constStr[k]? = some byte → literal[k]? = some byte) :
    call.PreservesEquality (call.blocksFrom false 0 constStr) size literal
        other n ↔
      ¬AgreeBelow literal other (min n constStr.length) ∨
        (AgreeBelow literal other n ∧ constStr.length ≤ n) := by
  have folded : ∀ byte, call.fold byte = byte := by
    intro byte
    rw [fold, caseSensitive, if_neg Bool.false_ne_true]
  have same : ∀ k < n, k < constStr.length →
      (call.Matches other 0 constStr k ↔ literal[k]? = some (other k)) := by
    intro k below inside
    have found := List.getElem?_eq_getElem inside
    unfold Matches
    simp only [folded, Nat.zero_add, found, agrees k below _ found, Option.some.injEq]
    exact ⟨fun all => all _ rfl, fun equal byte this => this ▸ equal⟩
  unfold PreservesEquality
  rw [run_phi_eq_zero_iff]
  simp only [mem_run_loads_iff]
  constructor
  · rintro ⟨zero, loads⟩
    by_cases agree : AgreeBelow literal other (min n constStr.length)
    · right
      have all : ∀ k < min n constStr.length,
          call.Matches other 0 constStr k := fun k inside =>
        (same k (by omega) (by omega)).mpr (agree k inside)
      by_cases short : constStr.length ≤ n
      · rw [Nat.min_eq_right short] at all
        exact ⟨zero.mp all, short⟩
      · -- the chain goes on behind the size
        have beyond := loads n ⟨n, by omega, by omega, fun j before =>
          all j (by omega)⟩
        exact absurd beyond (Nat.lt_irrefl n)
    · exact .inl agree
  · rintro (differ | ⟨agree, short⟩)
    · refine ⟨⟨fun all => ?_, fun agree => ?_⟩, ?_⟩
      · exact absurd (fun k inside => (same k (by omega) (by omega)).mp
          (all k (by omega))) differ
      · exact absurd (fun k inside => agree k (by omega)) differ
      · rintro load ⟨k, inside, rfl, all⟩
        by_contra beyond
        exact differ fun j before =>
          (same j (by omega) (by omega)).mp (all j (by omega))
    · refine ⟨⟨fun _ => agree, fun _ k inside => ?_⟩, ?_⟩
      · exact (same k (by omega) inside).mpr (agree k (by omega))
      · rintro load ⟨k, inside, rfl, _⟩
        omega

private theorem getElem?_length_takeWhile {bytes : List (BitVec 8)}
    (shorter : (bytes.takeWhile (· ≠ 0#8)).length < bytes.length) :
    bytes[(bytes.takeWhile (· ≠ 0#8)).length]? = some 0#8 := by
  induction bytes with
  | nil => cases shorter
  | cons byte bytes induction =>
      by_cases nul : byte = 0#8
      · subst byte
        simp
      · rw [List.takeWhile_cons_of_pos (by simpa using nul)] at shorter ⊢
        rw [List.length_cons, List.getElem?_cons_succ]
        exact induction (Nat.lt_of_succ_lt_succ shorter)

end SelectedCall

/-- The size of a memory comparison. -/
def Callee.memorySize {width : Nat} : Callee width → Option (BitVec width)
  | .memcmp (.constantInt value) | .bcmp (.constantInt value) => some value
  | _ => none

/-- How many bytes the chain of a memory comparison compares, when so many
bytes of the literal stand before its first NUL. -/
def Callee.compared {width : Nat} (callee : Callee width) (length : Nat) :
    Nat :=
  match callee with
  | .memcmp (.constantInt value) => min value.toNat length
  | _ => length + 1

namespace SelectedCall

variable {width : Nat} (call : SelectedCall width)

/-- The equality of memory is preserved exactly when the buffers differ in a
byte that is compared and lies below the size, or when they agree and no more
bytes are compared than the size says. -/
theorem chain_preservesEquality_iff {m : ScannedModule width}
    (strings : m.StringInfo) {operand : Operand}
    (literal : strings.info operand = some call.str) {value : BitVec width}
    (sized : call.callee.memorySize = some value)
    (inside : value.toNat ≤ (m.initialBytes operand).length)
    {blocks : List ChainBlock} (emitted : call.chain = some blocks)
    (size : BitVec width) (other : Nat → BitVec 8) :
    call.PreservesEquality blocks size (m.initialBytes operand) other
        value.toNat ↔
      ¬AgreeBelow (m.initialBytes operand) other
          (min value.toNat (call.callee.compared call.str.length)) ∨
        (AgreeBelow (m.initialBytes operand) other value.toNat ∧
          call.callee.compared call.str.length ≤ value.toNat) := by
  have text := strings.info_eq literal
  have starts : call.str <+: m.initialBytes operand := by
    rw [text]
    exact List.takeWhile_prefix _
  have before : ∀ (k : Nat) (byte : BitVec 8), call.str[k]? = some byte →
      (m.initialBytes operand)[k]? = some byte := by
    obtain ⟨rest, whole⟩ := starts
    intro k byte found
    rw [← whole, List.getElem?_append_left
      (List.getElem?_eq_some_iff.mp found).1, found]
  unfold chain at emitted
  split at emitted
  · obtain ⟨constStr, transformed, rfl⟩ := Option.map_eq_some_iff.mp emitted
    cases callee : call.callee with
    | strcmp | strcasecmp | strncmp _ | strncasecmp _ =>
        rw [callee] at sized
        cases sized
    | memcmp operand =>
        rw [callee] at sized
        cases operand with
        | runtime => cases sized
        | constantInt constant =>
            obtain rfl := Option.some.inj sized
            have same : constStr = call.str := by
              unfold tmpConstStr at transformed
              rw [callee] at transformed
              split at transformed
              · cases transformed
              · exact (Option.some.inj transformed).symm
            subst same
            have caseSensitive : call.callee.isCaseInsensitive = false := by
              rw [callee]
              rfl
            simp only [checksSize, unrollLen, callee, Callee.sizedValue]
            rw [call.preservesEquality_iff_of_agrees caseSensitive size _ other
              fun k _ byte found => ?_, List.length_take, Nat.min_assoc,
              Nat.min_self]
            · rfl
            · rw [List.getElem?_take] at found
              split at found
              · exact before k byte found
              · cases found
    | bcmp operand =>
        rw [callee] at sized
        cases operand with
        | runtime => cases sized
        | constantInt constant =>
            obtain rfl := Option.some.inj sized
            have string : call.callee.isMemcmp = false := by
              rw [callee]
              rfl
            have caseSensitive : call.callee.isCaseInsensitive = false := by
              rw [callee]
              rfl
            have trimmed : call.text = call.str := by
              rw [SelectedCall.text, text, List.takeWhile_idem]
            obtain rfl := call.tmpConstStr_string string transformed
            simp only [checksSize, unrollLen, callee, Callee.sizedValue]
            rw [List.take_length, trimmed]
            rw [call.preservesEquality_iff_of_agrees caseSensitive size _ other
              fun k below byte found => ?_, List.length_append,
              List.length_singleton]
            · rfl
            · rcases Nat.lt_or_ge k call.str.length with early | late
              · rw [List.getElem?_append_left early] at found
                exact before k byte found
              · rw [List.getElem?_append_right late, List.getElem?_singleton] at found
                split at found
                · obtain rfl : k = call.str.length := by omega
                  rw [← Option.some.inj found, text]
                  apply getElem?_length_takeWhile
                  rw [← text]
                  omega
                · cases found
  · cases emitted

/-- A module with the literal `"ab\0c"`. -/
def embeddedNul : ScannedModule 64 where
  globals := [⟨true, .dataArray [97#8, 98#8, 0#8, 99#8, 0#8]⟩]
  text := []

/-- A comparison of its first bytes. -/
def compareEmbeddedNul (callee : Callee 64) : SelectedCall 64 where
  callee := callee
  hasStr1 := false
  str := [97#8, 98#8]

/-- The buffer `"ab\0d"`. -/
def otherEnd : Nat → BitVec 8 := fun i => [97#8, 98#8, 0#8, 100#8].getD i 0#8

theorem chain_preservesEquality_two :
    (compareEmbeddedNul (.memcmp (.constantInt 2#64))).PreservesEquality
      [.cmpAdded 0 97#8, .cmpAdded 1 98#8] 2#64
      (embeddedNul.initialBytes (.globalGep 0 0)) otherEnd 2 :=
  (@chain_preservesEquality_iff _
    (compareEmbeddedNul (.memcmp (.constantInt 2#64))) embeddedNul
    ⟨embeddedNul.constantString, fun _ => rfl⟩ (.globalGep 0 0) (by decide)
    2#64 rfl (by decide) _ (by decide) 2#64 otherEnd).mpr (by decide)

/-- The chain of `memcmp` misses what follows the NUL, and the one of `bcmp`
reads behind the size. -/
theorem chain_not_preservesEquality_embeddedNul :
    (compareEmbeddedNul (.memcmp (.constantInt 4#64))).chain =
        some [.cmpAdded 0 97#8, .cmpAdded 1 98#8] ∧
      ¬(compareEmbeddedNul (.memcmp (.constantInt 4#64))).PreservesEquality
        [.cmpAdded 0 97#8, .cmpAdded 1 98#8] 4#64
        (embeddedNul.initialBytes (.globalGep 0 0)) otherEnd 4 ∧
      (compareEmbeddedNul (.bcmp (.constantInt 2#64))).chain =
        some [.cmpAdded 0 97#8, .cmpAdded 1 98#8, .cmpAdded 2 0#8] ∧
      ¬(compareEmbeddedNul (.bcmp (.constantInt 2#64))).PreservesEquality
        [.cmpAdded 0 97#8, .cmpAdded 1 98#8, .cmpAdded 2 0#8] 2#64
        (embeddedNul.initialBytes (.globalGep 0 0)) otherEnd 2 := by
  refine ⟨by decide, fun preserves => ?_, by decide, fun preserves => ?_⟩
  · exact absurd (preserves.1.mp (by decide)) (by decide)
  · exact absurd (preserves.2 2 (by decide)) (by decide)

end SelectedCall

end CompareTransform

end AFLPlusPlus
