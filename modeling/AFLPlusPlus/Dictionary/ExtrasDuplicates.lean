import AFLPlusPlus.Dictionary.Extras

/-!
# Extras that stand twice

`dedup_extras` removes the tokens that have occurred before, and `add_extra`
refuses a token that is there.  Both stop where the tokens become longer.
-/

namespace AFLPlusPlus.Dictionary

namespace Extras

/-- Whether `memcmp` finds no difference. -/
def memcmp (state : Extras) (first second len : Nat) : Except Unit Bool := do
  let bytes ← state.load first len
  let other ← state.load second len
  .ok (bytes = other)

/-- The loop over `j`, which restarts behind a removed slot: in either case one
slot less is left. -/
def dedupFrom (i : Nat) : Nat → Nat → Extras → Except Unit Extras
  | 0, _, state => .ok state
  | left + 1, j, state => do
      let first ← state.slot i
      let second ← state.slot j
      if first.len ≠ second.len then .ok state
      else
        let same ← state.memcmp first.data second.data first.len
        if same then
          let state ← state.removeAt j
          dedupFrom i left j state
        else dedupFrom i left (j + 1) state

/-- The loop over `i`. -/
def dedupRounds : Nat → Nat → Extras → Except Unit Extras
  | 0, _, state => .ok state
  | rounds + 1, i, state =>
      if i < state.extrasCnt - 1 then do
        let state ← dedupFrom i (state.extrasCnt - (i + 1)) (i + 1) state
        dedupRounds rounds (i + 1) state
      else .ok state

/-- `dedup_extras`, which leaves no slot that is not in use. -/
def dedupExtras (state : Extras) : Except Unit Extras :=
  if state.extrasCnt < 2 then .ok state
  else do
    let state' ← dedupRounds state.extrasCnt 0 state
    if state'.extrasCnt ≠ state.extrasCnt then
      .ok { state' with extras := state'.extras.take state'.extrasCnt }
    else .ok state'

/-- The loop of `add_extra`: whether the token is there. -/
def addScan (mem : Text) (state : Extras) : Nat → Nat → Bool → Except Unit Bool
  | 0, _, _ => .ok false
  | left + 1, i, found => do
      let entry ← state.slot i
      if entry.len = mem.length then
        let bytes ← state.load entry.data mem.length
        if bytes = mem then .ok true
        else addScan mem state left (i + 1) true
      else if found then .ok false
      else addScan mem state left (i + 1) found

def addExtra (qsort : (ExtraData → ExtraData → Int) → List ExtraData →
    List ExtraData) (mem : Text) (state : Extras) : Except Unit Extras := do
  let present ← addScan mem state state.extrasCnt 0 false
  if present then .ok state
  else if maxDictFile < mem.length then .ok state
  else .ok ((state.addExtraNocheck mem).sort qsort)

end Extras

def SortedByLen (tokens : List Text) : Prop :=
  tokens.Pairwise fun a b => a.length ≤ b.length

variable {token : Text}

theorem SortedByLen.longer {before rest : List Text}
    (sorted : SortedByLen (before ++ token :: rest)) {len : Nat}
    (long : len < token.length) :
    ∀ other ∈ token :: rest, other.length ≠ len := by
  have order := (List.pairwise_append.mp sorted).2.1
  rw [List.pairwise_cons] at order
  refine List.forall_mem_cons.mpr ⟨Nat.ne_of_gt long, fun other mem => ?_⟩
  exact Nat.ne_of_gt (Nat.lt_of_lt_of_le long (order.1 other mem))

theorem mem_eraseDups {tokens : List Text} :
    token ∈ tokens.eraseDups ↔ token ∈ tokens := by
  induction length : tokens.length using Nat.strong_induction_on
    generalizing tokens with
  | _ size induction =>
      cases tokens with
      | nil => exact Iff.rfl
      | cons first rest =>
          have shorter := List.length_filter_le (fun b => !b == first) rest
          rw [List.length_cons] at length
          rw [List.eraseDups_cons, List.mem_cons, List.mem_cons,
            induction _ (by omega) rfl, List.mem_filter]
          by_cases same : token = first
          · exact iff_of_true (.inl same) (.inl same)
          · simp [same]

theorem eraseDups_sublist (tokens : List Text) : tokens.eraseDups.Sublist tokens := by
  induction length : tokens.length using Nat.strong_induction_on
    generalizing tokens with
  | _ size induction =>
      cases tokens with
      | nil => exact .slnil
      | cons first rest =>
          have shorter := List.length_filter_le (fun b => !b == first) rest
          rw [List.length_cons] at length
          rw [List.eraseDups_cons]
          exact .cons_cons _ ((induction _ (by omega) _ rfl).trans List.filter_sublist)

theorem nodup_eraseDups (tokens : List Text) : tokens.eraseDups.Nodup := by
  induction length : tokens.length using Nat.strong_induction_on
    generalizing tokens with
  | _ size induction =>
      cases tokens with
      | nil => exact .nil
      | cons first rest =>
          have shorter := List.length_filter_le (fun b => !b == first) rest
          rw [List.length_cons] at length
          rw [List.eraseDups_cons, List.nodup_cons, mem_eraseDups]
          exact ⟨by simp, induction _ (by omega) _ rfl⟩

namespace Extras

variable {state : Extras}

theorem Valid.entry_of_token (valid : state.Valid) {i : Nat}
    (found : state.tokens[i]? = some token) :
    ∃ entry, state.slot i = .ok entry ∧ entry.len = token.length ∧
      state.load entry.data entry.len = .ok token := by
  rw [tokens, List.getElem?_map, Option.map_eq_some_iff] at found
  obtain ⟨entry, found, rfl⟩ := found
  have mem := List.mem_of_getElem? found
  exact ⟨entry, valid.slot_eq found, (valid.length_token mem).symm, valid.load_eq mem⟩

/-- Behind slot `i` the tokens that are the same as its token are removed. -/
theorem dedupFrom_spec {i : Nat} (before : List Text) (behind : List Text)
    (valid : state.Valid) (split : state.tokens = before ++ behind)
    (sorted : SortedByLen (before ++ behind)) (here : before[i]? = some token) :
    ∃ next, dedupFrom i behind.length before.length state = .ok next ∧ next.Valid ∧
      next.tokens = before ++ behind.filter fun other => !other == token := by
  induction behind generalizing before state with
  | nil => exact ⟨state, rfl, valid, split⟩
  | cons other rest induction =>
      obtain ⟨inside, _⟩ := List.getElem?_eq_some_iff.mp here
      have foundFirst : state.tokens[i]? = some token := by
        rw [split, List.getElem?_append_left inside, here]
      have foundSecond : state.tokens[before.length]? = some other := by
        rw [split, List.getElem?_append_right (Nat.le_refl _), Nat.sub_self]
        rfl
      obtain ⟨first, firstSlot, firstLen, firstBytes⟩ :=
        valid.entry_of_token foundFirst
      obtain ⟨second, secondSlot, secondLen, secondBytes⟩ :=
        valid.entry_of_token foundSecond
      rw [List.length_cons, dedupFrom, firstSlot, ok_bind, secondSlot, ok_bind,
        firstLen, secondLen]
      by_cases different : token.length ≠ other.length
      · have shorter : token.length ≤ other.length :=
          (List.pairwise_append.mp sorted).2.2 token
            (List.mem_of_getElem? here) other List.mem_cons_self
        have none := sorted.longer (Nat.lt_of_le_of_ne shorter different)
        refine ⟨state, if_pos different, valid, split.trans ?_⟩
        refine congrArg _ (List.filter_eq_self.mpr fun later mem => ?_).symm
        have distinct : later ≠ token := fun same =>
          none later mem (congrArg _ same)
        simpa using distinct
      rw [if_neg different]
      have equal := Decidable.not_not.mp different
      rw [firstLen] at firstBytes
      rw [secondLen, ← equal] at secondBytes
      rw [memcmp, firstBytes, ok_bind, secondBytes, ok_bind, ok_bind]
      by_cases same : token = other
      · obtain ⟨next, removed, nextValid, nextTokens⟩ :=
          valid.removeAt (List.getElem?_eq_some_iff.mp foundSecond).1
        rw [split, List.eraseIdx_append_of_length_le (Nat.le_refl _),
          Nat.sub_self, List.eraseIdx_cons_zero] at nextTokens
        rw [if_pos (decide_eq_true same), removed, ok_bind, List.filter_cons,
          if_neg (by simp [same])]
        refine induction before nextValid nextTokens ?_ here
        exact sorted.sublist
          (List.Sublist.append_left (List.sublist_cons_self _ _) _)
      · rw [if_neg (by simpa using same), List.filter_cons,
          if_pos (by simpa using fun equal => same equal.symm),
          List.append_cons before]
        rw [List.append_cons before] at split sorted
        have goesOn := induction (before ++ [other]) valid split sorted
          (by rw [List.getElem?_append_left inside, here])
        rwa [List.length_append] at goesOn

/-- From slot `i` on every token stays where it stands first. -/
theorem dedupRounds_spec (rounds : Nat) (before behind : List Text)
    (valid : state.Valid) (split : state.tokens = before ++ behind)
    (sorted : SortedByLen (before ++ behind))
    (enough : behind.length ≤ rounds) :
    ∃ next, dedupRounds rounds before.length state = .ok next ∧ next.Valid ∧
      next.tokens = before ++ behind.eraseDups := by
  induction rounds generalizing before behind state with
  | zero =>
      obtain rfl := List.length_eq_zero_iff.mp (Nat.le_zero.mp enough)
      exact ⟨state, rfl, valid, split⟩
  | succ rounds induction =>
      have length := valid.length_tokens
      rw [split, List.length_append] at length
      rw [dedupRounds]
      cases behind with
      | nil =>
          rw [List.length_nil] at length
          rw [if_neg (by omega)]
          exact ⟨state, rfl, valid, split⟩
      | cons token rest =>
          rw [List.length_cons] at length enough
          rw [List.eraseDups_cons]
          by_cases last : rest = []
          · rw [last, List.length_nil] at length
            rw [if_neg (by omega), last]
            rw [last] at split
            exact ⟨state, rfl, valid, split⟩
          have more := List.length_pos_iff.mpr last
          have left : state.extrasCnt - (before.length + 1) = rest.length := by
            omega
          rw [List.append_cons before] at split sorted
          have here : (before ++ [token])[before.length]? = some token := by
            rw [List.getElem?_append_right (Nat.le_refl _), Nat.sub_self]
            rfl
          obtain ⟨next, deduped, nextValid, nextTokens⟩ :=
            dedupFrom_spec (before ++ [token]) rest valid split sorted here
          rw [List.length_append, List.length_singleton] at deduped
          rw [if_pos (by omega), left, deduped, ok_bind, List.append_cons before]
          have sortedNext : SortedByLen (before ++ [token] ++
              rest.filter fun other => !other == token) :=
            sorted.sublist (List.Sublist.append_left List.filter_sublist _)
          have goesOn := induction (before ++ [token]) _ nextValid nextTokens
            sortedNext (Nat.le_trans (List.length_filter_le _ _)
              (Nat.le_of_succ_le_succ enough))
          rwa [List.length_append] at goesOn

theorem live_shrink :
    ({ state with extras := state.extras.take state.extrasCnt } :
      Extras).live = state.live := by
  rw [live, live, List.take_take, Nat.min_self]

theorem Valid.shrink (valid : state.Valid) :
    ({ state with extras := state.extras.take state.extrasCnt } : Extras).Valid where
  inside := Nat.le_of_eq valid.length_live.symm
  stored := by
    rw [live_shrink]
    exact valid.stored
  own := by
    rw [live_shrink]
    exact valid.own
  owned := by
    rw [live_shrink]
    exact valid.owned
  null := valid.null
  beyond := valid.beyond
  small := by
    rw [live_shrink]
    exact valid.small

theorem Valid.dedupExtras (valid : state.Valid)
    (sorted : SortedByLen state.tokens) :
    ∃ next, state.dedupExtras = .ok next ∧ next.Valid ∧
      next.tokens = state.tokens.eraseDups := by
  have length := valid.length_tokens
  rw [Extras.dedupExtras]
  by_cases few : state.extrasCnt < 2
  · refine ⟨state, if_pos few, valid, ?_⟩
    rcases tokens : state.tokens with _ | ⟨token, _ | ⟨other, rest⟩⟩
    · rfl
    · rfl
    · rw [tokens, List.length_cons, List.length_cons] at length
      omega
  · obtain ⟨next, deduped, nextValid, nextTokens⟩ :=
      dedupRounds_spec state.extrasCnt [] state.tokens valid rfl sorted
        (Nat.le_of_eq length)
    rw [List.length_nil] at deduped
    rw [if_neg few, deduped, ok_bind]
    by_cases fewer : next.extrasCnt ≠ state.extrasCnt
    · refine ⟨_, if_pos fewer, nextValid.shrink, ?_⟩
      rw [tokens, live_shrink]
      exact nextTokens
    · exact ⟨next, if_neg fewer, nextValid, nextTokens⟩

/-- The loop finds the token if it stands behind slot `i`. -/
theorem addScan_spec (mem : Text) (before behind : List Text) (found : Bool)
    (valid : state.Valid) (split : state.tokens = before ++ behind)
    (sorted : SortedByLen (before ++ behind))
    (seen : found = true → ∃ token ∈ before, token.length = mem.length) :
    addScan mem state behind.length before.length found =
      .ok (decide (mem ∈ behind)) := by
  induction behind generalizing before found with
  | nil => rfl
  | cons token rest induction =>
      have here : state.tokens[before.length]? = some token := by
        rw [split, List.getElem?_append_right (Nat.le_refl _), Nat.sub_self]
        rfl
      obtain ⟨entry, entrySlot, entryLen, entryBytes⟩ := valid.entry_of_token here
      have order := (List.pairwise_append.mp sorted).2.2
      have goesOn : ∀ found, (found = true →
            ∃ passed ∈ before ++ [token], passed.length = mem.length) →
          addScan mem state rest.length (before.length + 1) found =
            .ok (decide (mem ∈ rest)) := by
        intro found seen
        rw [List.append_cons] at split sorted
        have next := induction (before ++ [token]) found split sorted seen
        rwa [List.length_append] at next
      rw [List.length_cons, addScan, entrySlot, ok_bind, entryLen]
      by_cases equal : token.length = mem.length
      · rw [entryLen, equal] at entryBytes
        rw [if_pos equal, entryBytes, ok_bind]
        by_cases same : token = mem
        · rw [if_pos same, decide_eq_true (by rw [same]; exact List.mem_cons_self)]
        · rw [if_neg same, goesOn true fun _ => ⟨token, by simp, equal⟩]
          have skipped : mem ∈ rest ↔ mem ∈ token :: rest :=
            ⟨List.mem_cons_of_mem _,
              List.mem_of_ne_of_mem fun equal => same equal.symm⟩
          rw [decide_eq_decide.mpr skipped]
      · have other : mem ≠ token := fun same => equal (congrArg _ same.symm)
        rw [if_neg equal]
        cases found with
        | true =>
            -- the tokens of this length lie behind the loop
            obtain ⟨first, mem', length⟩ := seen rfl
            have less := order first mem' token List.mem_cons_self
            have long : mem.length < token.length := by omega
            have none := sorted.longer long
            rw [if_pos rfl, decide_eq_false fun present =>
              none mem present rfl]
        | false =>
            rw [if_neg Bool.false_ne_true, goesOn false fun found => nomatch found]
            simp [other]

/-- What `add_extra` leaves: the tokens as they were, or one that has not been
there more. -/
theorem Valid.addExtra {qsort : (ExtraData → ExtraData → Int) →
      List ExtraData → List ExtraData}
    (sorts : Qsort.Sorts qsort) (valid : state.Valid)
    (sorted : SortedByLen state.tokens) (mem : Text) :
    ∃ next, state.addExtra qsort mem = .ok next ∧ next.Valid ∧
      SortedByLen next.tokens ∧
      if mem ∈ state.tokens ∨ maxDictFile < mem.length then
        next.tokens = state.tokens
      else next.tokens.Perm (state.tokens ++ [mem]) := by
  have scan := addScan_spec mem [] state.tokens false valid rfl sorted
    fun found => nomatch found
  rw [valid.length_tokens, List.length_nil] at scan
  rw [Extras.addExtra, scan, ok_bind]
  by_cases present : mem ∈ state.tokens
  · refine ⟨state, if_pos (decide_eq_true present), valid, sorted, ?_⟩
    rw [if_pos (.inl present)]
  rw [if_neg (by simpa using present)]
  by_cases long : maxDictFile < mem.length
  · refine ⟨state, if_pos long, valid, sorted, ?_⟩
    rw [if_pos (.inr long)]
  · have added := valid.count_place (Nat.le_refl mem.length)
      (Nat.not_lt.mp long)
    have appended := tokens_count_place valid mem mem.length
    rw [List.take_length] at appended
    obtain ⟨nextValid, perm, order⟩ := added.sort sorts
    refine ⟨_, if_neg long, nextValid, order, ?_⟩
    rw [if_neg (not_or_intro present long)]
    exact perm.trans (.of_eq appended)

end Extras

end AFLPlusPlus.Dictionary
