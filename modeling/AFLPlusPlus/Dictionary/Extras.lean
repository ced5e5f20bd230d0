import AFLPlusPlus.Dictionary.TokenBuffer
import AFLPlusPlus.Support.Loops
import AFLPlusPlus.Support.Qsort

/-!
# The list of extras

`afl->extras` is an array of pointers to the tokens, of which `extras_cnt` are
in use.  An access to a slot that is not allocated, or to bytes that are not
those of a live block, is an error.
-/

namespace AFLPlusPlus.Dictionary

/-- `struct extra_data`, without the use count. -/
structure ExtraData where
  data : Nat
  len : Nat
  deriving DecidableEq

/-- The array and the blocks of the heap that are live.  Address 0 is `NULL`,
and `fresh` is where the next block is allocated. -/
structure Extras where
  extras : List ExtraData
  extrasCnt : Nat
  blocks : Nat → Option Text
  fresh : Nat

variable {entry : ExtraData} {j len : Nat} {block : Text}

namespace Extras

def start : Extras := ⟨[], 0, fun _ => none, 1⟩

def slot (state : Extras) (i : Nat) : Except Unit ExtraData :=
  (state.extras[i]?).elim (.error ()) .ok

/-- The first `len` bytes at an address. -/
def load (state : Extras) (data len : Nat) : Except Unit Text :=
  if len = 0 then .ok []
  else ((state.blocks data).bind fun block => Region.read block 0 len).elim
    (.error ()) .ok

/-- `ck_free` -/
def free (state : Extras) (data : Nat) : Except Unit Extras :=
  if data = 0 then .ok state
  else if state.blocks data = none then .error ()
  else .ok { state with blocks := Function.update state.blocks data none }

/-- The array grows by the slot behind the last one, which gets the first `len`
bytes of a new block.  `ck_alloc` has no block for a token without bytes. -/
def place (state : Extras) (block : Text) (len : Nat) : Extras :=
  let data := if block = [] then 0 else state.fresh
  let missing := state.extrasCnt + 1 - state.extras.length
  let unused : ExtraData := ⟨0, 0⟩
  { extras := (state.extras ++ List.replicate missing unused).set
      state.extrasCnt ⟨data, len⟩
    extrasCnt := state.extrasCnt
    blocks :=
      if block = [] then state.blocks
      else Function.update state.blocks state.fresh (some block)
    fresh := state.fresh + 1 }

/-- `extras_cnt++` -/
def count (state : Extras) : Extras := { state with extrasCnt := state.extrasCnt + 1 }

def addExtraNocheck (state : Extras) (mem : Text) : Extras :=
  (state.place mem mem.length).count

/-- The block of slot `j` is freed, and the slots behind it move down. -/
def removeAt (state : Extras) (j : Nat) : Except Unit Extras := do
  let entry ← state.slot j
  let state ← state.free entry.data
  let moved :=
    if j + 1 < state.extrasCnt then
      Region.memcpy state.extras j state.extras (j + 1)
        (state.extrasCnt - j - 1)
    else some state.extras
  moved.elim (.error ()) fun extras =>
    .ok { state with extras := extras, extrasCnt := state.extrasCnt - 1 }

/-- `compare_extras_len`: the difference of two `u32` as an `int`. -/
def compareExtrasLen (e1 e2 : ExtraData) : Int :=
  (BitVec.ofNat 32 e1.len - BitVec.ofNat 32 e2.len).toInt

def sort (qsort : (ExtraData → ExtraData → Int) → List ExtraData →
    List ExtraData) (state : Extras) : Extras :=
  { state with
    extras := qsort compareExtrasLen (state.extras.take state.extrasCnt) ++
      state.extras.drop state.extrasCnt }

def live (state : Extras) : List ExtraData := state.extras.take state.extrasCnt

def token (state : Extras) (entry : ExtraData) : Text :=
  ((state.blocks entry.data).getD []).take entry.len

def tokens (state : Extras) : List Text := state.live.map state.token

/-- An entry has its bytes in a live block, unless it has none. -/
def Stored (blocks : Nat → Option Text) (entry : ExtraData) : Prop :=
  (entry.data = 0 ∧ entry.len = 0) ∨
    ∃ block, blocks entry.data = some block ∧ entry.len ≤ block.length

/-- Every entry in use has a live block of its own, and every live block that
no entry has belongs to a keyword that was too long. -/
structure Valid (state : Extras) : Prop where
  inside : state.extrasCnt ≤ state.extras.length
  stored : ∀ entry ∈ state.live, Stored state.blocks entry
  own : state.live.Pairwise fun a b => a.data = b.data → a.data = 0
  owned : ∀ data block, state.blocks data = some block →
    (∃ entry ∈ state.live, entry.data = data) ∨ maxDictFile < block.length
  null : state.blocks 0 = none
  beyond : 0 < state.fresh ∧ ∀ data ≥ state.fresh, state.blocks data = none
  small : ∀ entry ∈ state.live, entry.len ≤ maxDictFile

variable {state : Extras}

theorem valid_start : start.Valid where
  inside := Nat.le_refl 0
  stored := List.forall_mem_nil _
  own := .nil
  owned := fun _ _ live => nomatch live
  null := rfl
  beyond := ⟨Nat.one_pos, fun _ _ => rfl⟩
  small := List.forall_mem_nil _

namespace Valid

section

variable (valid : state.Valid)
include valid

theorem length_live : state.live.length = state.extrasCnt :=
  List.length_take_of_le valid.inside

theorem length_tokens : state.tokens.length = state.extrasCnt := by
  rw [tokens, List.length_map, valid.length_live]

theorem length_token (mem : entry ∈ state.live) :
    (state.token entry).length = entry.len := by
  unfold token
  rcases valid.stored entry mem with ⟨_, empty⟩ | ⟨block, live, size⟩
  · rw [empty, List.take_zero]
    rfl
  · rw [live]
    exact List.length_take_of_le size

theorem slot_eq {i : Nat} (found : state.live[i]? = some entry) :
    state.slot i = .ok entry := by
  obtain ⟨inside, _⟩ := List.getElem?_eq_some_iff.mp found
  rw [valid.length_live] at inside
  rw [live, List.getElem?_take_of_lt inside] at found
  rw [slot, found]
  rfl

theorem load_eq (mem : entry ∈ state.live) :
    state.load entry.data entry.len = .ok (state.token entry) := by
  unfold load token
  split
  · rename_i empty
    rw [empty, List.take_zero]
  · rename_i positive
    rcases valid.stored entry mem with ⟨_, empty⟩ | ⟨block, live, size⟩
    · exact absurd empty positive
    · rw [live, Option.bind_some,
        Region.read_eq (by rwa [Nat.zero_add]), List.drop_zero]
      rfl

theorem data_lt (mem : entry ∈ state.live) : entry.data < state.fresh := by
  rcases valid.stored entry mem with ⟨null, _⟩ | ⟨block, live, _⟩
  · rw [null]
    exact valid.beyond.1
  · by_contra behind
    rw [valid.beyond.2 _ (Nat.not_lt.mp behind)] at live
    cases live

end

end Valid

/-- What `place` stores. -/
def placed (state : Extras) (block : Text) (len : Nat) : ExtraData :=
  ⟨if block = [] then 0 else state.fresh, len⟩

theorem live_place (valid : state.Valid) (block : Text) (len : Nat) :
    (state.place block len).live = state.live := by
  unfold live place
  rw [List.take_set_of_le (Nat.le_refl _), List.take_append_of_le_length valid.inside]

theorem live_count_place (valid : state.Valid) (block : Text) (len : Nat) :
    (state.place block len).count.live = state.live ++ [state.placed block len] := by
  have inside := valid.inside
  have here : (state.place block len).extras[state.extrasCnt]? =
      some (state.placed block len) := by
    refine List.getElem?_set_self ?_
    rw [List.length_append, List.length_replicate]
    omega
  have before : (state.place block len).extras.take state.extrasCnt =
      state.live := live_place valid block len
  have after : (state.place block len).count.live =
      (state.place block len).extras.take (state.extrasCnt + 1) := rfl
  rw [after, List.take_add_one, before, here]
  rfl

theorem blocks_place (block : Text) (len data : Nat) :
    (state.place block len).blocks data =
      if block ≠ [] ∧ data = state.fresh then some block
      else state.blocks data := by
  have blocks : (state.place block len).blocks =
      if block = [] then state.blocks
      else Function.update state.blocks state.fresh (some block) := rfl
  by_cases empty : block = []
  · have old : ¬(block ≠ [] ∧ data = state.fresh) := fun both => both.1 empty
    rw [blocks, if_pos empty, if_neg old]
  rw [blocks, if_neg empty]
  by_cases here : data = state.fresh
  · rw [if_pos ⟨empty, here⟩, here, Function.update_self]
  · have old : ¬(block ≠ [] ∧ data = state.fresh) := fun both => here both.2
    rw [if_neg old, Function.update_of_ne here]

theorem blocks_place_lt (block : Text) (len : Nat) {data : Nat}
    (old : data < state.fresh) :
    (state.place block len).blocks data = state.blocks data := by
  rw [blocks_place, if_neg fun both => Nat.ne_of_lt old both.2]

theorem token_congr {other : Extras}
    (same : other.blocks entry.data = state.blocks entry.data) :
    other.token entry = state.token entry := by
  rw [token, token, same]

theorem Stored.congr {blocks other : Nat → Option Text} (stored : Stored blocks entry)
    (same : other entry.data = blocks entry.data) : Stored other entry := by
  rcases stored with null | ⟨block, live, size⟩
  · exact .inl null
  · exact .inr ⟨block, same.trans live, size⟩

theorem stored_placed (size : len ≤ block.length) :
    Stored (state.place block len).blocks (state.placed block len) := by
  by_cases empty : block = []
  · rw [empty] at size
    exact .inl ⟨if_pos empty, Nat.le_zero.mp size⟩
  · have address : (state.placed block len).data = state.fresh := if_neg empty
    refine .inr ⟨block, ?_, size⟩
    rw [blocks_place, if_pos ⟨empty, address⟩]

theorem token_placed (valid : state.Valid) (block : Text) (len : Nat) :
    (state.place block len).token (state.placed block len) = block.take len := by
  by_cases empty : block = []
  · have address : (state.placed block len).data = 0 := if_pos empty
    rw [token, blocks_place_lt _ _ (by rw [address]; exact valid.beyond.1),
      address, valid.null, empty]
    rfl
  · have address : (state.placed block len).data = state.fresh := if_neg empty
    rw [token, blocks_place, if_pos ⟨empty, address⟩]
    rfl

theorem beyond_place (valid : state.Valid) (block : Text) (len : Nat) :
    ∀ data ≥ state.fresh + 1, (state.place block len).blocks data = none := by
  intro data behind
  rw [blocks_place, if_neg fun both => by omega]
  exact valid.beyond.2 data (Nat.le_of_succ_le behind)

theorem live_of_place {found : Text} {data : Nat}
    (live : (state.place block len).blocks data = some found) :
    state.blocks data = some found ∨
      data = (state.placed block len).data ∧ found = block := by
  rw [blocks_place] at live
  split at live
  · rename_i new
    refine .inr ⟨?_, (Option.some.inj live).symm⟩
    rw [new.2]
    exact (if_neg new.1).symm
  · exact .inl live

section

variable (valid : state.Valid)
include valid

theorem Valid.count_place (size : len ≤ block.length) (small : len ≤ maxDictFile) :
    (state.place block len).count.Valid where
  inside := by
    have inside := valid.inside
    change state.extrasCnt + 1 ≤ (state.place block len).extras.length
    unfold place
    rw [List.length_set, List.length_append, List.length_replicate]
    omega
  stored := by
    rw [live_count_place valid]
    refine List.forall_mem_append.mpr ⟨fun entry mem => ?_,
      List.forall_mem_singleton.mpr (stored_placed size)⟩
    exact (valid.stored entry mem).congr
      (blocks_place_lt block len (valid.data_lt mem))
  own := by
    rw [live_count_place valid]
    refine List.pairwise_append.mpr ⟨valid.own, List.pairwise_singleton _ _, ?_⟩
    intro entry mem new same address
    obtain rfl := List.mem_singleton.mp same
    have old := valid.data_lt mem
    by_cases empty : block = []
    · rw [address]
      exact if_pos empty
    · have new : (state.placed block len).data = state.fresh := if_neg empty
      omega
  owned := by
    intro data found live
    rw [live_count_place valid]
    rcases live_of_place live with old | ⟨new, _⟩
    · refine (valid.owned data found old).imp_left ?_
      rintro ⟨entry, mem, address⟩
      exact ⟨entry, List.mem_append_left _ mem, address⟩
    · exact .inl ⟨_, List.mem_append_right _ (List.mem_singleton.mpr rfl), new.symm⟩
  null := (blocks_place_lt block len valid.beyond.1).trans valid.null
  beyond := ⟨Nat.succ_pos _, beyond_place valid block len⟩
  small := by
    rw [live_count_place valid]
    exact List.forall_mem_append.mpr ⟨valid.small, List.forall_mem_singleton.mpr small⟩

theorem tokens_place (block : Text) (len : Nat) :
    state.live.map (state.place block len).token = state.tokens :=
  List.map_congr_left fun _ mem =>
    token_congr (blocks_place_lt block len (valid.data_lt mem))

theorem tokens_count_place (block : Text) (len : Nat) :
    (state.place block len).count.tokens = state.tokens ++ [block.take len] := by
  rw [tokens, live_count_place valid, List.map_append]
  exact congrArg₂ _ (tokens_place valid block len)
    (congrArg (fun token => [token]) (token_placed valid block len))

theorem Valid.place (long : maxDictFile < block.length) :
    (state.place block len).Valid where
  inside := by
    have inside := valid.inside
    change state.extrasCnt ≤ (state.place block len).extras.length
    unfold Extras.place
    rw [List.length_set, List.length_append, List.length_replicate]
    omega
  stored := by
    rw [live_place valid]
    exact fun entry mem => (valid.stored entry mem).congr
      (blocks_place_lt block len (valid.data_lt mem))
  own := by
    rw [live_place valid]
    exact valid.own
  owned := by
    intro data found live
    rw [live_place valid]
    rcases live_of_place live with old | ⟨_, same⟩
    · exact valid.owned data found old
    · exact .inr (same ▸ long)
  null := (blocks_place_lt block len valid.beyond.1).trans valid.null
  beyond := ⟨Nat.succ_pos _, beyond_place valid block len⟩
  small := by
    rw [live_place valid]
    exact valid.small

theorem tokens_placed (block : Text) (len : Nat) :
    (state.place block len).tokens = state.tokens := by
  rw [tokens, live_place valid]
  exact tokens_place valid block len

theorem free_eq (mem : entry ∈ state.live) :
    state.free entry.data = .ok { state with
      blocks := Function.update state.blocks entry.data none } := by
  unfold free
  rcases valid.stored entry mem with ⟨null, _⟩ | ⟨block, live, _⟩
  · rw [if_pos null, null, Function.update_eq_self_iff.mpr valid.null.symm]
  · have address : entry.data ≠ 0 := by
      intro null
      rw [null, valid.null] at live
      cases live
    have some : state.blocks entry.data ≠ none := by
      rw [live]
      exact Option.some_ne_none block
    rw [if_neg address, if_neg some]

end

/-- The slots in use are those before and those behind the removed one. -/
theorem moved_slots {extras : List ExtraData} {cnt : Nat} (inside : cnt ≤ extras.length)
    (used : j < cnt) :
    ∃ moved, (if j + 1 < cnt then
        Region.memcpy extras j extras (j + 1) (cnt - j - 1)
      else some extras) = some moved ∧ cnt - 1 ≤ moved.length ∧
      moved.take (cnt - 1) = (extras.take cnt).eraseIdx j := by
  rw [List.eraseIdx_eq_take_drop_succ, List.take_take,
    Nat.min_eq_left (Nat.le_of_lt used), List.drop_take]
  by_cases behind : j + 1 < cnt
  · obtain ⟨moved, copied, length, seen⟩ :=
      @Region.memcpy_some _ extras extras j (j + 1) (cnt - j - 1) (by omega)
        (fun _ => by omega)
    rw [show j + (cnt - j - 1) = cnt - 1 by omega] at seen
    refine ⟨moved, (if_pos behind).trans copied, by omega, seen.trans ?_⟩
    rw [Nat.sub_sub]
  · have last : cnt - 1 = j := by omega
    refine ⟨extras, if_neg behind, by omega, ?_⟩
    rw [last, Nat.sub_eq_zero_of_le (Nat.not_lt.mp behind), List.take_zero,
      List.append_nil]

theorem split_at {entries : List ExtraData} (found : entries[j]? = some entry) :
    entries = entries.take j ++ entry :: entries.drop (j + 1) := by
  obtain ⟨inside, same⟩ := List.getElem?_eq_some_iff.mp found
  rw [← same, ← List.drop_eq_getElem_cons inside, List.take_append_drop]

theorem Valid.apart (valid : state.Valid) {j : Nat} {entry other : ExtraData}
    (found : state.live[j]? = some entry)
    (mem : other ∈ state.live.eraseIdx j)
    (same : other.data = entry.data) : other.data = 0 := by
  have own := valid.own
  rw [split_at found, List.pairwise_append, List.pairwise_cons] at own
  rw [List.eraseIdx_eq_take_drop_succ] at mem
  rcases List.mem_append.mp mem with before | behind
  · exact own.2.2 other before entry List.mem_cons_self same
  · exact same.trans (own.2.1.1 other behind same.symm)

theorem Valid.blocks_freed (valid : state.Valid) {other : ExtraData}
    (found : state.live[j]? = some entry) (mem : other ∈ state.live.eraseIdx j) :
    Function.update state.blocks entry.data none other.data =
      state.blocks other.data := by
  by_cases same : other.data = entry.data
  · have null := valid.apart found mem same
    rw [← same, Function.update_self, null, valid.null]
  · exact Function.update_of_ne same _ _

theorem Valid.removeAt (valid : state.Valid) (used : j < state.tokens.length) :
    ∃ next, state.removeAt j = .ok next ∧ next.Valid ∧
      next.tokens = state.tokens.eraseIdx j := by
  rw [valid.length_tokens] at used
  obtain ⟨entry, found⟩ : ∃ entry, state.live[j]? = some entry := by
    rw [← valid.length_live] at used
    exact ⟨_, List.getElem?_eq_getElem used⟩
  have mem := List.mem_of_getElem? found
  obtain ⟨moved, copied, inside, seen⟩ := moved_slots valid.inside used
  have erased : ∀ other ∈ state.live.eraseIdx j, other ∈ state.live :=
    fun other mem => (List.eraseIdx_sublist _ _).subset mem
  let next : Extras :=
    ⟨moved, state.extrasCnt - 1,
      Function.update state.blocks entry.data none, state.fresh⟩
  have live : next.live = state.live.eraseIdx j := seen
  refine ⟨next, ?_, ?_, ?_⟩
  · rw [Extras.removeAt, valid.slot_eq found, ok_bind, free_eq valid mem, ok_bind]
    simp only [copied]
    rfl
  · refine
      { inside := inside
        stored := ?_
        own := ?_
        owned := ?_
        null := ?_
        beyond := ⟨valid.beyond.1, ?_⟩
        small := ?_ }
    · rw [live]
      exact fun other mem => (valid.stored other (erased other mem)).congr
        (valid.blocks_freed found mem)
    · rw [live]
      exact valid.own.sublist (List.eraseIdx_sublist _ _)
    · intro data block stays
      have other : data ≠ entry.data := by
        intro same
        rw [same] at stays
        exact absurd ((Function.update_self _ _ _).symm.trans stays)
          (Option.some_ne_none block).symm
      rw [live]
      refine (valid.owned data block
        ((Function.update_of_ne other _ _).symm.trans stays)).imp_left ?_
      rintro ⟨owner, mem, address⟩
      refine ⟨owner, ?_, address⟩
      rw [split_at found, List.mem_append, List.mem_cons] at mem
      rw [List.eraseIdx_eq_take_drop_succ, List.mem_append]
      refine mem.imp_right fun mem => mem.resolve_left fun same => ?_
      exact other (by rw [← address, same])
    · by_cases null : 0 = entry.data
      · exact null ▸ Function.update_self _ _ _
      · exact (Function.update_of_ne null _ _).trans valid.null
    · intro data behind
      have old : entry.data ≠ data :=
        Nat.ne_of_lt (Nat.lt_of_lt_of_le (valid.data_lt mem) behind)
      exact (Function.update_of_ne old.symm _ _).trans
        (valid.beyond.2 data behind)
    · rw [live]
      exact fun other mem => valid.small other (erased other mem)
  · rw [tokens, tokens, live, List.eraseIdx_map]
    refine List.map_congr_left fun other mem => ?_
    have same : next.blocks other.data = state.blocks other.data :=
      valid.blocks_freed found mem
    exact token_congr same

theorem compareExtrasLen_eq {e1 e2 : ExtraData} (first : e1.len < 2 ^ 31)
    (second : e2.len < 2 ^ 31) :
    compareExtrasLen e1 e2 = (e1.len : Int) - e2.len := by
  have value : ∀ len < 2 ^ 31, (BitVec.ofNat 32 len).toInt = (len : Int) := by
    intro len small
    rw [BitVec.toInt_ofNat', Int.bmod_eq_of_le] <;> omega
  rw [compareExtrasLen, BitVec.toInt_sub, value _ first, value _ second,
    Int.bmod_eq_of_le] <;> omega

variable {qsort : (ExtraData → ExtraData → Int) → List ExtraData → List ExtraData}

theorem Valid.consistent (valid : state.Valid) :
    Qsort.Consistent compareExtrasLen state.live := by
  have bounded : ∀ entry ∈ state.live, entry.len < 2 ^ 31 := by
    intro entry mem
    have small := valid.small entry mem
    rw [maxDictFile] at small
    omega
  exact Qsort.consistent_of_difference (fun entry => entry.len)
    fun a first b second =>
      compareExtrasLen_eq (bounded a first) (bounded b second)

theorem Valid.sort (sorts : Qsort.Sorts qsort) (valid : state.Valid) :
    (state.sort qsort).Valid ∧ (state.sort qsort).tokens.Perm state.tokens ∧
      (state.sort qsort).tokens.Pairwise
        fun a b => a.length ≤ b.length := by
  obtain ⟨perm, sorted⟩ := sorts compareExtrasLen state.live valid.consistent
  have length := perm.length_eq.trans valid.length_live
  have live : (state.sort qsort).live = qsort compareExtrasLen state.live :=
    List.take_left' length
  have valid' : (state.sort qsort).Valid :=
    { inside := by
        have longer := @List.length_append _
          (qsort compareExtrasLen state.live)
          (state.extras.drop state.extrasCnt)
        change state.extrasCnt ≤ (state.sort qsort).extras.length
        exact Nat.le_trans (Nat.le_of_eq length.symm)
          (Nat.le_trans (Nat.le_add_right _ _) (Nat.le_of_eq longer.symm))
      stored := by
        rw [live]
        exact fun entry mem => valid.stored entry (perm.subset mem)
      own := by
        rw [live, perm.pairwise_iff fun {a b} apart same =>
          same.trans (apart same.symm)]
        exact valid.own
      owned := by
        intro data block stays
        rw [live]
        refine (valid.owned data block stays).imp_left ?_
        rintro ⟨entry, mem, address⟩
        exact ⟨entry, perm.symm.subset mem, address⟩
      null := valid.null
      beyond := valid.beyond
      small := by
        rw [live]
        exact fun entry mem => valid.small entry (perm.subset mem) }
  refine ⟨valid', ?_, ?_⟩
  · rw [tokens, live]
    exact perm.map state.token
  · rw [tokens, live, List.pairwise_map]
    refine List.Pairwise.imp_of_mem ?_ sorted
    intro a b first second less
    have bounded : ∀ entry ∈ qsort compareExtrasLen state.live,
        entry.len ≤ 128 ∧ (state.token entry).length = entry.len :=
      fun entry mem => ⟨valid.small entry (perm.subset mem),
        valid.length_token (perm.subset mem)⟩
    obtain ⟨smallFirst, lengthFirst⟩ := bounded a first
    obtain ⟨smallSecond, lengthSecond⟩ := bounded b second
    rw [compareExtrasLen_eq (by omega) (by omega)] at less
    have same : (state.sort qsort).token = state.token := rfl
    rw [same, lengthFirst, lengthSecond]
    omega

end Extras

end AFLPlusPlus.Dictionary
