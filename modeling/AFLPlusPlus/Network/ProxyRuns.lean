import AFLPlusPlus.Network.Proxy
import Mathlib.Algebra.Order.Ring.Nat

/-!
# Runs of the network proxy

A request passes through phases, in which both sides and the bytes in flight
are known.  A move leads to the same or the next phase, with less to be done.
-/

namespace AFLPlusPlus.NetworkProxy

open Buffer

theorem answers_append (proxy : Proxy) (done : List (List (BitVec 8)))
    (data : List (BitVec 8)) :
    answers proxy (done ++ [data]) =
      answers proxy done ++ [answer proxy (done ++ [data])] := by
  unfold answers
  rw [List.length_append, List.length_singleton, List.range_succ,
    List.map_append, List.map_singleton]
  congr 1
  · apply List.map_congr_left
    intro i member
    have inside := List.mem_range.mp member
    rw [List.take_append_of_le_length (by omega)]
  · rw [List.take_of_length_le (by simp)]

/-- Both sides are where they are, with these bytes in flight. -/
structure System.At (system : System) (client : ClientPc) (server : ServerPc)
    (toServer toClient : List (BitVec 8)) : Prop where
  client : system.client.pc = client
  server : system.server.pc = server
  toServer : system.toServer = toServer
  toClient : system.toClient = toClient

/-- The last test case is under way. -/
structure InFlight (proxy : Proxy) (system : System)
    (done : List (List (BitVec 8))) (data : List (BitVec 8)) : Prop where
  requested : system.requested = done ++ [data]
  answered : system.answered = answers proxy done
  nonempty : 0 < data.length
  short : data.length < 2 ^ 31

section Phases

variable (proxy : Proxy)

def answerMap (executions : List (List (BitVec 8))) : List (BitVec 8) :=
  (answer proxy executions).2

/-- How far a request is, and how much is left to do at most. -/
inductive Phase (system : System) : Nat → Prop
  | idle (at_ : system.At .nextTestcase (.recvSize 0) [] [])
      (executed : system.executed = system.requested)
      (answered : system.answered = answers proxy system.requested) :
      Phase system 0
  | sizeSent {done : List (List (BitVec 8))} {data : List (BitVec 8)}
      (inFlight : InFlight proxy system done data)
      (executed : system.executed = done)
      (at_ : system.At (.recvStatus 0) (.recvSize 0)
        (wordBytes 4 (BitVec.ofNat 32 data.length) ++ data) []) :
      Phase system (6 + proxy.clientMapSize + data.length)
  | sizeRead {done : List (List (BitVec 8))} {data : List (BitVec 8)}
      (inFlight : InFlight proxy system done data)
      (executed : system.executed = done)
      (at_ : system.At (.recvStatus 0) (.recvSize 4) data [])
      (size : system.server.frame.loadAt 4 0 = BitVec.ofNat 32 data.length) :
      Phase system (5 + proxy.clientMapSize + data.length)
  | dataRead {done : List (List (BitVec 8))} {data : List (BitVec 8)}
      {received : Nat} (inFlight : InFlight proxy system done data)
      (executed : system.executed = done) (inside : received ≤ data.length)
      (at_ : system.At (.recvStatus 0) (.recvData data.length received)
        (data.drop received) [])
      (spells : Spells system.server.inData 0 (data.take received)) :
      Phase system (4 + proxy.clientMapSize + (data.length - received))
  | resultSent {done : List (List (BitVec 8))} {data : List (BitVec 8)}
      (inFlight : InFlight proxy system done data)
      (executed : system.executed = done ++ [data])
      (at_ : system.At (.recvStatus 0) (.recvSize 0) []
        (wordBytes 4 (answer proxy (done ++ [data])).1 ++
          answerMap proxy (done ++ [data]))) :
      Phase system (3 + proxy.clientMapSize)
  | statusRead {done : List (List (BitVec 8))} {data : List (BitVec 8)}
      (inFlight : InFlight proxy system done data)
      (executed : system.executed = done ++ [data])
      (at_ : system.At (.recvStatus 4) (.recvSize 0) []
        (answerMap proxy (done ++ [data])))
      (status : system.client.frame.loadAt 4 0 = (answer proxy (done ++ [data])).1) :
      Phase system (2 + proxy.clientMapSize)
  | mapRead {done : List (List (BitVec 8))} {data : List (BitVec 8)}
      {received : Nat} (inFlight : InFlight proxy system done data)
      (executed : system.executed = done ++ [data])
      (inside : received ≤ proxy.clientMapSize)
      (at_ : system.At
        (.recvMap (answer proxy (done ++ [data])).1 received) (.recvSize 0) []
        ((answerMap proxy (done ++ [data])).drop received))
      (spells : Spells system.client.area 0
        ((answerMap proxy (done ++ [data])).take received)) :
      Phase system (1 + (proxy.clientMapSize - received))

end Phases

theorem recv_some {stream bytes rest : List (BitVec 8)} {room count : Nat}
    (received : recv stream room count = some (bytes, rest)) :
    0 < count ∧ count ≤ room ∧ count ≤ stream.length ∧
      bytes = stream.take count ∧ rest = stream.drop count := by
  unfold recv at received
  split at received
  · rename_i fits
    cases received
    exact ⟨fits.1, fits.2.1, fits.2.2, rfl, rfl⟩
  · cases received

theorem recv_nil (room count : Nat) : recv [] room count = none := by
  rw [recv, List.length_nil, if_neg (by omega)]

theorem recv_full (stream : List (BitVec 8)) (count : Nat) :
    recv stream 0 count = none := by
  rw [recv, if_neg (by omega)]

section Step

variable {proxy : Proxy} {system next : System} {rank : Nat}
  {done : List (List (BitVec 8))} {data : List (BitVec 8)}

/-- What a move leaves to be done. -/
def Continues (proxy : Proxy) (move : Move) (rank : Nat) (next : System) :
    Prop :=
  ∃ rank', Phase proxy next rank' ∧
    ((∃ testcase, move = .request testcase) ∨ rank' < rank)

section

variable (phase : Phase proxy system rank)
include phase

theorem Phase.request (maxLen : proxy.maxLen < 2 ^ 31) {testcase : List (BitVec 8)}
    (valid : testcase ≠ [] ∧ testcase.length ≤ proxy.maxLen)
    (stepped : NetworkProxy.request proxy testcase system = some next) :
    Continues proxy (.request testcase) rank next := by
  have positive := List.length_pos_iff.mpr valid.1
  have whole : testcase.take proxy.maxLen = testcase := List.take_of_length_le valid.2
  cases phase with
  | idle at_ executed answered =>
      simp only [NetworkProxy.request, at_.client, whole,
        Nat.ne_of_gt positive, if_false] at stepped
      obtain rfl := Option.some.inj stepped
      refine ⟨_, @Phase.sizeSent proxy _ system.requested testcase
        ⟨rfl, answered, positive, by omega⟩ executed
        ⟨rfl, at_.server, ?_, at_.toClient⟩, .inl ⟨_, rfl⟩⟩
      rw [at_.toServer]
      rfl
  | _ =>
      rename System.At _ _ _ _ _ => at_
      simp only [NetworkProxy.request, at_.client, reduceCtorEq] at stepped

theorem Phase.clientRecv (sameMaps : proxy.clientMapSize = proxy.serverMapSize)
    {count : Nat} (whole : (Move.clientRecv count).Whole system)
    (stepped : NetworkProxy.clientRecv proxy count system = some next) :
    Continues proxy (.clientRecv count) rank next := by
  cases phase with
  | @resultSent done data inFlight executed at_ =>
      obtain rfl := whole 0 at_.client
      simp only [NetworkProxy.clientRecv, at_.client] at stepped
      obtain ⟨⟨bytes, rest⟩, received, rfl⟩ := Option.map_eq_some_iff.mp stepped
      obtain ⟨_, _, _, rfl, rfl⟩ := recv_some received
      rw [at_.toClient] at *
      refine ⟨_, .statusRead { inFlight with } executed
        ⟨rfl, at_.server, at_.toServer, ?_⟩ ?_, .inr ?_⟩
      · exact List.drop_left' (length_wordBytes _ _)
      · rw [List.take_left' (length_wordBytes _ _)]
        exact (spells_storeBytes _ _ _).loadAt_eq
      · omega
  | @mapRead done data received inFlight executed inside at_ spells =>
      simp only [NetworkProxy.clientRecv, at_.client] at stepped
      obtain ⟨⟨bytes, rest⟩, arrived, rfl⟩ := Option.map_eq_some_iff.mp stepped
      obtain ⟨positive, fits, _, rfl, rfl⟩ := recv_some arrived
      rw [at_.toClient]
      have length : (answerMap proxy (done ++ [data])).length =
          proxy.clientMapSize := by
        rw [sameMaps]
        exact length_loadBytes _ _ _
      refine ⟨_, @Phase.mapRead proxy _ done data (received + count)
        { inFlight with } executed (by omega)
        ⟨rfl, at_.server, at_.toServer, ?_⟩ ?_, .inr ?_⟩
      · exact List.drop_drop
      · have next := spells.storeBytes_next
          (((answerMap proxy (done ++ [data])).drop received).take count)
        rw [← List.take_add, List.length_take_of_le (by omega), Nat.zero_add] at next
        exact next
      · omega
  | _ =>
      rename System.At _ _ _ _ _ => at_
      simp only [NetworkProxy.clientRecv, at_.client, at_.toClient, recv_nil,
        Nat.sub_self, recv_full, Option.map_none, reduceCtorEq] at stepped

theorem Phase.clientProceed (sameMaps : proxy.clientMapSize = proxy.serverMapSize)
    (stepped : NetworkProxy.clientProceed proxy system = some next) :
    Continues proxy .clientProceed rank next := by
  cases phase with
  | @statusRead done data inFlight executed at_ status =>
      simp only [NetworkProxy.clientProceed, at_.client, Nat.lt_irrefl,
        if_false] at stepped
      obtain rfl := Option.some.inj stepped
      refine ⟨_, @Phase.mapRead proxy _ done data 0 { inFlight with } executed
        (Nat.zero_le _) ⟨?_, at_.server, at_.toServer, at_.toClient⟩ nofun,
        .inr ?_⟩
      · rw [status]
      · omega
  | @mapRead done data received inFlight executed inside at_ spells =>
      simp only [NetworkProxy.clientProceed, at_.client] at stepped
      split at stepped
      · cases stepped
      · obtain rfl := Option.some.inj stepped
        obtain rfl : received = proxy.clientMapSize := by omega
        have length : (answerMap proxy (done ++ [data])).length =
            proxy.clientMapSize := by
          rw [sameMaps]
          exact length_loadBytes _ _ _
        rw [List.take_of_length_le (by omega)] at spells
        have loaded := spells.loadBytes_eq
        rw [length] at loaded
        refine ⟨_, .idle ⟨rfl, at_.server, at_.toServer, ?_⟩
          (executed.trans inFlight.requested.symm) ?_, .inr ?_⟩
        · rw [at_.toClient, List.drop_of_length_le (by omega)]
        · rw [inFlight.requested, answers_append, inFlight.answered, loaded]
          rfl
        · omega
  | _ =>
      rename System.At _ _ _ _ _ => at_
      simp only [NetworkProxy.clientProceed, at_.client, Nat.zero_lt_succ,
        if_true, reduceCtorEq] at stepped

theorem Phase.serverRecv {count : Nat} (whole : (Move.serverRecv count).Whole system)
    (stepped : NetworkProxy.serverRecv count system = some next) :
    Continues proxy (.serverRecv count) rank next := by
  cases phase with
  | @sizeSent done data inFlight executed at_ =>
      obtain rfl := whole 0 at_.server
      simp only [NetworkProxy.serverRecv, at_.server] at stepped
      obtain ⟨⟨bytes, rest⟩, received, rfl⟩ := Option.map_eq_some_iff.mp stepped
      obtain ⟨_, _, _, rfl, rfl⟩ := recv_some received
      rw [at_.toServer] at *
      refine ⟨_, .sizeRead { inFlight with } executed
        ⟨at_.client, rfl, ?_, at_.toClient⟩ ?_, .inr ?_⟩
      · exact List.drop_left' (length_wordBytes _ _)
      · rw [List.take_left' (length_wordBytes _ _)]
        exact (spells_storeBytes _ _ _).loadAt_eq
      · omega
  | @dataRead done data received inFlight executed inside at_ spells =>
      simp only [NetworkProxy.serverRecv, at_.server] at stepped
      obtain ⟨⟨bytes, rest⟩, arrived, rfl⟩ := Option.map_eq_some_iff.mp stepped
      obtain ⟨positive, fits, _, rfl, rfl⟩ := recv_some arrived
      rw [at_.toServer]
      refine ⟨_, @Phase.dataRead proxy _ done data (received + count)
        { inFlight with } executed (by omega)
        ⟨at_.client, rfl, ?_, at_.toClient⟩ ?_, .inr ?_⟩
      · exact List.drop_drop
      · have next := spells.storeBytes_next ((data.drop received).take count)
        rw [← List.take_add, List.length_take_of_le (by omega), Nat.zero_add] at next
        exact next
      · omega
  | _ =>
      rename System.At _ _ _ _ _ => at_
      simp only [NetworkProxy.serverRecv, at_.server, at_.toServer, recv_nil,
        Nat.sub_self, recv_full, Option.map_none, reduceCtorEq] at stepped

end

theorem plain_length {len : Nat} (positive : 0 < len) (short : len < 2 ^ 31) :
    let size := BitVec.ofNat 32 len
    size.toNat = len ∧ 0 < size.toInt ∧ size ≠ 0#32 ∧
      size &&& 0xff000000#32 ≠ 0xff000000#32 := by
  intro size
  have isLen : size.toNat = len := by
    rw [BitVec.toNat_ofNat, Nat.mod_eq_of_lt (by omega)]
  have isInt : size.toInt = len := by
    rw [BitVec.toInt_eq_toNat_cond, isLen, if_pos (by omega)]
  refine ⟨isLen, by omega, fun zero => ?_, fun compressed => ?_⟩
  · rw [zero] at isLen
    exact Nat.ne_of_lt positive isLen
  · have high := congrArg (fun word => BitVec.getLsbD word 31) compressed
    have low : size.getLsbD 31 = false := by
      rw [← BitVec.testBit_toNat]
      exact Nat.testBit_lt_two_pow (by omega)
    simp only [BitVec.getLsbD_and, low, Bool.false_and] at high
    exact absurd high (by decide)

theorem Phase.serverProceed (phase : Phase proxy system rank)
    (stepped : NetworkProxy.serverProceed proxy system = some next) :
    Continues proxy .serverProceed rank next := by
  cases phase with
  | @sizeRead done data inFlight executed at_ size =>
      obtain ⟨isLen, _, nonzero, plain⟩ :=
        plain_length inFlight.nonempty inFlight.short
      simp only [NetworkProxy.serverProceed, at_.server, Nat.lt_irrefl,
        if_false, size, nonzero, plain, or_self, isLen] at stepped
      obtain rfl := Option.some.inj stepped
      refine ⟨_, @Phase.dataRead proxy _ done data 0 { inFlight with } executed
        (Nat.zero_le _) ⟨at_.client, rfl, at_.toServer, at_.toClient⟩ nofun,
        .inr ?_⟩
      omega
  | @dataRead done data received inFlight executed inside at_ spells =>
      obtain ⟨_, positive, _, _⟩ := plain_length inFlight.nonempty inFlight.short
      simp only [NetworkProxy.serverProceed, at_.server, positive, if_true] at stepped
      split at stepped
      · cases stepped
      · obtain rfl := Option.some.inj stepped
        obtain rfl : received = data.length := by omega
        rw [List.take_length] at spells
        have loaded := spells.loadBytes_eq
        refine ⟨_, @Phase.resultSent proxy _ done data
          { inFlight with } ?_ ⟨at_.client, rfl, ?_, ?_⟩, .inr ?_⟩
        · rw [runAndSend, executed, loaded]
        · rw [runAndSend]
          exact at_.toServer.trans List.drop_length
        · rw [runAndSend, executed, loaded, at_.toClient]
          rfl
        · omega
  | _ =>
      rename System.At _ _ _ _ _ => at_
      simp only [NetworkProxy.serverProceed, at_.server, Nat.zero_lt_succ,
        if_true, reduceCtorEq] at stepped

end Step

section Runs

variable {proxy : Proxy} {system : System} {rank : Nat}

section

variable (phase : Phase proxy system rank)
include phase

theorem Phase.step (sameMaps : proxy.clientMapSize = proxy.serverMapSize)
    (maxLen : proxy.maxLen < 2 ^ 31) {move : Move} {next : System}
    (valid : move.Valid proxy) (whole : move.Whole system)
    (stepped : NetworkProxy.step proxy move system = some next) :
    Continues proxy move rank next := by
  cases move with
  | request testcase => exact phase.request maxLen valid stepped
  | clientRecv count => exact phase.clientRecv sameMaps whole stepped
  | clientProceed => exact phase.clientProceed sameMaps stepped
  | serverRecv count => exact phase.serverRecv whole stepped
  | serverProceed => exact phase.serverProceed stepped

/-- While a request is under way, one of the sides can go on. -/
theorem Phase.progress (busy : rank ≠ 0)
    (sameMaps : proxy.clientMapSize = proxy.serverMapSize) :
    ∃ move, (NetworkProxy.step proxy move system).isSome = true ∧
      move.Valid proxy ∧ move.Whole system ∧
      ∀ testcase, move ≠ .request testcase := by
  have stream : ∀ {bytes : List (BitVec 8)} {room : Nat}, 0 < room →
      room ≤ bytes.length → recv bytes room room =
        some (bytes.take room, bytes.drop room) := by
    intro bytes room positive enough
    exact if_pos ⟨positive, Nat.le_refl _, enough⟩
  cases phase with
  | idle at_ executed answered => exact absurd rfl busy
  | sizeSent inFlight executed at_ =>
      refine ⟨.serverRecv 4, ?_, trivial, fun _ _ => rfl, nofun⟩
      simp only [NetworkProxy.step, NetworkProxy.serverRecv, at_.server, at_.toServer]
      rw [stream (by omega) (by simp)]
      rfl
  | sizeRead inFlight executed at_ size =>
      refine ⟨.serverProceed, ?_, trivial, trivial, nofun⟩
      simp only [NetworkProxy.step, NetworkProxy.serverProceed, at_.server, Nat.lt_irrefl,
        if_false]
      rfl
  | @dataRead done data received inFlight executed inside at_ spells =>
      by_cases more : received < data.length
      · refine ⟨.serverRecv (data.length - received), ?_, trivial, ?_, nofun⟩
        · simp only [NetworkProxy.step, NetworkProxy.serverRecv, at_.server, at_.toServer]
          rw [stream (by omega) (by simp)]
          rfl
        · intro received' isSize
          rw [at_.server] at isSize
          cases isSize
      · refine ⟨.serverProceed, ?_, trivial, trivial, nofun⟩
        have positive := (plain_length inFlight.nonempty inFlight.short).2.1
        simp only [NetworkProxy.step, NetworkProxy.serverProceed, at_.server, more,
          if_false, positive, if_true]
        rfl
  | resultSent inFlight executed at_ =>
      refine ⟨.clientRecv 4, ?_, trivial, fun _ _ => rfl, nofun⟩
      simp only [NetworkProxy.step, NetworkProxy.clientRecv, at_.client, at_.toClient]
      rw [stream (by omega) (by simp)]
      rfl
  | statusRead inFlight executed at_ status =>
      refine ⟨.clientProceed, ?_, trivial, trivial, nofun⟩
      simp only [NetworkProxy.step, NetworkProxy.clientProceed, at_.client, Nat.lt_irrefl,
        if_false]
      rfl
  | @mapRead done data received inFlight executed inside at_ spells =>
      by_cases more : received < proxy.clientMapSize
      · refine ⟨.clientRecv (proxy.clientMapSize - received), ?_, trivial, ?_, nofun⟩
        · have length : (answerMap proxy (done ++ [data])).length =
              proxy.clientMapSize := by
            rw [sameMaps]
            exact length_loadBytes _ _ _
          simp only [NetworkProxy.step, NetworkProxy.clientRecv, at_.client, at_.toClient]
          rw [stream (by omega) (Nat.le_of_eq (by rw [List.length_drop, length]))]
          rfl
        · intro received' isStatus
          rw [at_.client] at isStatus
          cases isStatus
      · refine ⟨.clientProceed, ?_, trivial, trivial, nofun⟩
        simp only [NetworkProxy.step, NetworkProxy.clientProceed, at_.client, more,
          if_false]
        rfl

/-- A request that is under way can be answered. -/
theorem Phase.finishes (sameMaps : proxy.clientMapSize = proxy.serverMapSize)
    (maxLen : proxy.maxLen < 2 ^ 31) :
    ∃ moves final, runMoves (NetworkProxy.step proxy) moves system = some final ∧
      MovesMeet (NetworkProxy.step proxy)
        (fun before move => move.Whole before) moves system ∧
      (∀ testcase, .request testcase ∉ moves) ∧
      Phase proxy final 0 := by
  induction rank using Nat.strongRecOn generalizing system with
  | ind rank induction =>
      by_cases busy : rank = 0
      · subst busy
        exact ⟨[], system, rfl, trivial, fun _ => List.not_mem_nil, phase⟩
      · obtain ⟨move, possible, valid, whole, noRequest⟩ :=
          phase.progress busy sameMaps
        obtain ⟨next, stepped⟩ := Option.isSome_iff_exists.mp possible
        obtain ⟨rank', phase', less⟩ := phase.step sameMaps maxLen valid whole stepped
        have smaller : rank' < rank :=
          less.resolve_left fun ⟨testcase, is⟩ => noRequest testcase is
        obtain ⟨moves, final, ran, meet, none, idle⟩ := induction rank' smaller phase'
        refine ⟨move :: moves, final, ?_, ⟨whole, ?_⟩, ?_, idle⟩
        · rw [runMoves, stepped]
          exact ran
        · intro next' stepped'
          obtain rfl := Option.some.inj (stepped.symm.trans stepped')
          exact meet
        · intro testcase member
          rcases List.mem_cons.mp member with same | later
          · exact noRequest testcase same.symm
          · exact none testcase later

end

theorem requested_of_step {move : Move} {next : System}
    (stepped : NetworkProxy.step proxy move system = some next)
    (noRequest : ∀ testcase, move ≠ .request testcase) :
    next.requested = system.requested := by
  cases move with
  | request testcase => exact absurd rfl (noRequest testcase)
  | clientRecv count | serverRecv count =>
      simp only [NetworkProxy.step, clientRecv, serverRecv] at stepped
      split at stepped
      · obtain ⟨_, _, rfl⟩ := Option.map_eq_some_iff.mp stepped
        rfl
      · obtain ⟨_, _, rfl⟩ := Option.map_eq_some_iff.mp stepped
        rfl
      · cases stepped
  | clientProceed | serverProceed =>
      simp only [NetworkProxy.step, clientProceed, serverProceed] at stepped
      repeat' split at stepped
      all_goals cases stepped
      all_goals rfl

theorem requested_of_runMoves {moves : List Move} {final : System}
    (ran : runMoves (NetworkProxy.step proxy) moves system = some final)
    (noRequest : ∀ testcase, .request testcase ∉ moves) :
    final.requested = system.requested := by
  induction moves generalizing system with
  | nil =>
      obtain rfl := Option.some.inj ran
      rfl
  | cons move moves induction =>
      unfold runMoves at ran
      split at ran
      · cases ran
      · rename_i next stepped
        have first := requested_of_step stepped fun testcase same =>
          noRequest testcase (same ▸ List.mem_cons_self)
        exact (induction ran fun testcase member =>
          noRequest testcase (List.mem_cons_of_mem _ member)).trans first

/-- The server ran the test cases it was sent, and the client passed on their
results. -/
structure Transparent (proxy : Proxy) (system : System) : Prop where
  executed : system.executed <+: system.requested
  answered : system.answered <+: answers proxy system.requested
  client : system.client.pc ≠ .exited
  server : system.server.pc ≠ .exited

theorem Phase.transparent (phase : Phase proxy system rank) :
    Transparent proxy system := by
  have answersPrefix : ∀ done data,
      answers proxy done <+: answers proxy (done ++ [data]) := by
    intro done data
    rw [answers_append]
    exact List.prefix_append _ _
  have sent : ∀ {done data}, InFlight proxy system done data →
      (system.executed = done ∨ system.executed = done ++ [data]) →
      system.executed <+: system.requested ∧
        system.answered <+: answers proxy system.requested := by
    intro done data inFlight executed
    rw [inFlight.requested, inFlight.answered]
    refine ⟨?_, answersPrefix done data⟩
    rcases executed with before | after
    · rw [before]
      exact List.prefix_append _ _
    · exact after ▸ List.prefix_rfl
  cases phase with
  | idle at_ executed answered =>
      refine ⟨?_, ?_, ?_, ?_⟩
      · exact executed ▸ List.prefix_rfl
      · exact answered ▸ List.prefix_rfl
      · rw [at_.client]
        exact nofun
      · rw [at_.server]
        exact nofun
  | sizeSent inFlight executed at_ | sizeRead inFlight executed at_ =>
      obtain ⟨isExecuted, isAnswered⟩ := sent inFlight (.inl executed)
      exact ⟨isExecuted, isAnswered, at_.client ▸ nofun, at_.server ▸ nofun⟩
  | dataRead inFlight executed inside at_ =>
      obtain ⟨isExecuted, isAnswered⟩ := sent inFlight (.inl executed)
      exact ⟨isExecuted, isAnswered, at_.client ▸ nofun, at_.server ▸ nofun⟩
  | resultSent inFlight executed at_ | statusRead inFlight executed at_ =>
      obtain ⟨isExecuted, isAnswered⟩ := sent inFlight (.inr executed)
      exact ⟨isExecuted, isAnswered, at_.client ▸ nofun, at_.server ▸ nofun⟩
  | mapRead inFlight executed inside at_ =>
      obtain ⟨isExecuted, isAnswered⟩ := sent inFlight (.inr executed)
      exact ⟨isExecuted, isAnswered, at_.client ▸ nofun, at_.server ▸ nofun⟩

theorem Phase.finished (phase : Phase proxy system rank) (none : rank = 0) :
    system.executed = system.requested ∧
      system.answered = answers proxy system.requested := by
  cases phase with
  | idle at_ executed answered => exact ⟨executed, answered⟩
  | _ => omega

/-- With one map size, and if no receive returns a part of a length or of a
status only, every run is transparent and its requests can all be answered. -/
theorem run_transparent (sameMaps : proxy.clientMapSize = proxy.serverMapSize)
    (maxLen : proxy.maxLen < 2 ^ 31) {clientFrame area serverFrame inData : Buffer}
    {moves : List Move} {reached : System}
    (meet : MovesMeet (NetworkProxy.step proxy)
      (fun before move => move.Valid proxy ∧ move.Whole before) moves
      (start clientFrame area serverFrame inData))
    (runs : runMoves (NetworkProxy.step proxy) moves
      (start clientFrame area serverFrame inData) = some reached) :
    Transparent proxy reached ∧
      ∃ rest final, runMoves (NetworkProxy.step proxy) rest reached = some final ∧
        MovesMeet (NetworkProxy.step proxy)
          (fun before move => move.Whole before) rest reached ∧
        final.requested = reached.requested ∧
        final.executed = reached.requested ∧
        final.answered = answers proxy reached.requested := by
  have started : ∃ rank,
      Phase proxy (start clientFrame area serverFrame inData) rank :=
    ⟨0, .idle ⟨rfl, rfl, rfl, rfl⟩ rfl rfl⟩
  obtain ⟨rank, phase⟩ := runMoves_invariant_of_meets
    (fun system => ∃ rank, Phase proxy system rank)
    (fun move state next holds meets stepped => by
      obtain ⟨rank, phase⟩ := holds
      obtain ⟨rank', phase', _⟩ := phase.step sameMaps maxLen meets.1 meets.2 stepped
      exact ⟨rank', phase'⟩)
    started meet runs
  obtain ⟨rest, final, ran, whole, noRequest, idle⟩ := phase.finishes sameMaps maxLen
  refine ⟨phase.transparent, rest, final, ran, whole, ?_⟩
  have same : final.requested = reached.requested :=
    requested_of_runMoves ran noRequest
  obtain ⟨executed, answered⟩ := idle.finished rfl
  rw [same] at executed answered
  exact ⟨same, executed, answered⟩

end Runs

/-- A target that reports the length of the last execution as its status, and a
map of eight bytes. -/
def lengthProxy : Proxy where
  maxLen := 65536
  clientMapSize := 8
  serverMapSize := 8
  runTarget := fun executions =>
    (BitVec.ofNat 32 (executions.getLast?.getD []).length, fun _ => 1#8)

def zeroBytes : Buffer := fun _ => 0#8

def requestMoves : List Move :=
  [.request [7#8, 9#8], .serverRecv 4, .serverProceed, .serverRecv 1]

def zeroStart : System := start zeroBytes zeroBytes zeroBytes zeroBytes

theorem requestMoves_meet :
    MovesMeet (step lengthProxy)
      (fun before move => move.Valid lengthProxy ∧ move.Whole before)
      requestMoves zeroStart := by
  refine ⟨⟨⟨by decide, by decide⟩, trivial⟩, ?_⟩
  rintro _ ⟨⟩
  refine ⟨⟨trivial, fun _ _ => rfl⟩, ?_⟩
  rintro _ ⟨⟩
  refine ⟨⟨trivial, trivial⟩, ?_⟩
  rintro _ ⟨⟩
  exact ⟨⟨trivial, nofun⟩, fun _ _ => trivial⟩

theorem run_transparent_request :
    ∃ reached, runMoves (step lengthProxy) requestMoves zeroStart = some reached ∧
      Transparent lengthProxy reached ∧
      ∃ rest final, runMoves (step lengthProxy) rest reached = some final ∧
        MovesMeet (step lengthProxy) (fun before move => move.Whole before)
          rest reached ∧
        final.requested = reached.requested ∧
        final.executed = reached.requested ∧
        final.answered = answers lengthProxy reached.requested := by
  have runs :
      ∃ reached, runMoves (step lengthProxy) requestMoves zeroStart = some reached :=
    ⟨_, rfl⟩
  obtain ⟨reached, runs⟩ := runs
  exact ⟨reached, runs, run_transparent rfl (by decide) requestMoves_meet runs⟩

set_option maxRecDepth 4000 in
/-- 257 bytes are sent, and the server receives one byte of their length before
the other three: it runs the first byte only. -/
theorem run_splitLength :
    let testcase := List.replicate 257 7#8
    let moves : List Move :=
      [.request testcase, .serverRecv 1, .serverRecv 3, .serverProceed,
        .serverRecv 1, .serverProceed]
    (∀ move ∈ moves, move.Valid lengthProxy) ∧
      ∃ reached, runMoves (step lengthProxy) moves zeroStart = some reached ∧
        reached.requested = [testcase] ∧ reached.executed = [[7#8]] := by
  refine ⟨?_, _, rfl, rfl, rfl⟩
  intro move member
  simp only [List.mem_cons, List.not_mem_nil, or_false] at member
  rcases member with rfl | rfl | rfl | rfl | rfl | rfl
  · exact ⟨by decide, by decide⟩
  all_goals trivial

end AFLPlusPlus.NetworkProxy
