import AFLPlusPlus.Support.Stores
import AFLPlusPlus.Support.Transitions

/-!
# The network proxy

`afl-network-client` takes the place of the target for `afl-fuzz`, and
`afl-network-server` runs the target.  They exchange test cases and results
over a stream of bytes in each direction, built here without compression.  A
receive returns any number of bytes, at least one, that have arrived.
-/

namespace AFLPlusPlus.NetworkProxy

open Buffer

/-- The test cases, the command line of the client, and the target at the server:
`runTarget` gives the status and the trace of the last of some executions. -/
structure Proxy where
  maxLen : Nat
  clientMapSize : Nat
  serverMapSize : Nat
  runTarget : List (List (BitVec 8)) → BitVec 32 × Buffer

/-- Where the client is in its loop. -/
inductive ClientPc
  | nextTestcase
  | recvStatus (received : Nat)
  | recvMap (status : BitVec (8 * 4)) (received : Nat)
  | exited
  deriving DecidableEq

/-- Where the server is in its loop. -/
inductive ServerPc
  | recvSize (received : Nat)
  | recvData (size received : Nat)
  | exited
  deriving DecidableEq

/-- The stack from `status` on, and the coverage map, of the client. -/
structure Client where
  pc : ClientPc
  frame : Buffer
  area : Buffer

/-- The stack from `size` on, and the test case, of the server. -/
structure Server where
  pc : ServerPc
  frame : Buffer
  inData : Buffer

/-- Both sides, the bytes in flight, and what happened so far: the test cases
that `afl-fuzz` asked for, those that were executed, and the answers. -/
structure System where
  client : Client
  server : Server
  toServer : List (BitVec 8)
  toClient : List (BitVec 8)
  requested : List (List (BitVec 8))
  executed : List (List (BitVec 8))
  answered : List (BitVec (8 * 4) × List (BitVec 8))

/-- A request of `afl-fuzz` with a test case, a receive of some bytes, or the end
of a receive loop. -/
inductive Move
  | request (testcase : List (BitVec 8))
  | clientRecv (count : Nat)
  | clientProceed
  | serverRecv (count : Nat)
  | serverProceed

/-- `recv` with room for `room` bytes returns `count` bytes of the stream. -/
def recv (stream : List (BitVec 8)) (room count : Nat) :
    Option (List (BitVec 8) × List (BitVec 8)) :=
  if 0 < count ∧ count ≤ room ∧ count ≤ stream.length then
    some (stream.take count, stream.drop count)
  else none

section Steps

variable (proxy : Proxy)

/-- `__afl_next_testcase` reads at most `max_len` bytes; the length and the bytes
are sent in one piece. -/
def request (testcase : List (BitVec 8)) (system : System) : Option System :=
  match system.client.pc with
  | .nextTestcase =>
      let data := testcase.take proxy.maxLen
      let requested := system.requested ++ [testcase]
      if data.length = 0 then
        some { system with
          requested := requested
          client.pc := .exited }
      else
        some { system with
          requested := requested
          client.pc := .recvStatus 0
          toServer := system.toServer ++
            (wordBytes 4 (BitVec.ofNat 32 data.length) ++ data) }
  | _ => none

/-- `&status` points to words, so `&status + received` is `received` words
behind it. -/
def clientRecv (count : Nat) (system : System) : Option System :=
  match system.client.pc with
  | .recvStatus received =>
      (recv system.toClient (4 - received) count).map fun (bytes, rest) =>
        { system with
          toClient := rest
          client.frame := system.client.frame.storeBytes (4 * received) bytes
          client.pc := .recvStatus (received + count) }
  | .recvMap status received =>
      (recv system.toClient (proxy.clientMapSize - received) count).map
        fun (bytes, rest) =>
        { system with
          toClient := rest
          client.area := system.client.area.storeBytes received bytes
          client.pc := .recvMap status (received + count) }
  | _ => none

/-- Behind the loops of the client; the second one ends with
`__afl_end_testcase`. -/
def clientProceed (system : System) : Option System :=
  match system.client.pc with
  | .recvStatus received =>
      if received < 4 then none
      else
        some { system with
          client.pc := .recvMap (system.client.frame.loadAt 4 0) 0 }
  | .recvMap status received =>
      if received < proxy.clientMapSize then none
      else
        some { system with
          client.pc := .nextTestcase
          answered := system.answered ++
            [(status, system.client.area.loadBytes 0 proxy.clientMapSize)] }
  | _ => none

/-- The two loops of `recv_testcase`; `&size + received` is as in the client. -/
def serverRecv (count : Nat) (system : System) : Option System :=
  match system.server.pc with
  | .recvSize received =>
      (recv system.toServer (4 - received) count).map fun (bytes, rest) =>
        { system with
          toServer := rest
          server.frame := system.server.frame.storeBytes (4 * received) bytes
          server.pc := .recvSize (received + count) }
  | .recvData size received =>
      (recv system.toServer (size - received) count).map fun (bytes, rest) =>
        { system with
          toServer := rest
          server.inData := system.server.inData.storeBytes received bytes
          server.pc := .recvData size (received + count) }
  | .exited => none

/-- `run_target` on what was received, and the answer. -/
def runAndSend (size : Nat) (system : System) : System :=
  let executed := system.executed ++ [system.server.inData.loadBytes 0 size]
  let result := proxy.runTarget executed
  { system with
    executed := executed
    server.pc := .recvSize 0
    toClient := system.toClient ++
      (wordBytes 4 result.1 ++ result.2.loadBytes 0 proxy.serverMapSize) }

/-- Behind the loops of `recv_testcase`, and the loop of `main`, which ends on a
length that is negative as an `s32`. -/
def serverProceed (system : System) : Option System :=
  match system.server.pc with
  | .recvSize received =>
      if received < 4 then none
      else
        let size : BitVec 32 := system.server.frame.loadAt 4 0
        let compressed := size &&& 0xff000000#32 = 0xff000000#32
        some { system with
          server.pc :=
            if size = 0#32 ∨ compressed then .exited
            else .recvData size.toNat 0 }
  | .recvData size received =>
      if received < size then none
      else if 0 < (BitVec.ofNat 32 size).toInt then
        some (runAndSend proxy size system)
      else some { system with server.pc := .exited }
  | .exited => none

def step : Move → System → Option System
  | .request testcase => request proxy testcase
  | .clientRecv count => clientRecv proxy count
  | .clientProceed => clientProceed proxy
  | .serverRecv count => serverRecv count
  | .serverProceed => serverProceed proxy

end Steps

/-- Both sides are connected; what stands on their stacks and in their buffers is
arbitrary. -/
def start (clientFrame area serverFrame inData : Buffer) : System where
  client := ⟨.nextTestcase, clientFrame, area⟩
  server := ⟨.recvSize 0, serverFrame, inData⟩
  toServer := []
  toClient := []
  requested := []
  executed := []
  answered := []

/-- The answer to the last of some executions. -/
def answer (proxy : Proxy) (executions : List (List (BitVec 8))) :
    BitVec (8 * 4) × List (BitVec 8) :=
  let result := proxy.runTarget executions
  (result.1, result.2.loadBytes 0 proxy.serverMapSize)

/-- The answers to all of some executions. -/
def answers (proxy : Proxy) (executions : List (List (BitVec 8))) :
    List (BitVec (8 * 4) × List (BitVec 8)) :=
  (List.range executions.length).map fun i =>
    answer proxy (executions.take (i + 1))

/-- A receive into a length or a status returns all of it. -/
def Move.Whole (system : System) : Move → Prop
  | .clientRecv count => ∀ received,
      system.client.pc = .recvStatus received → count = 4
  | .serverRecv count => ∀ received, system.server.pc = .recvSize received → count = 4
  | _ => True

/-- The requests are for test cases that are not empty and not too long. -/
def Move.Valid (proxy : Proxy) : Move → Prop
  | .request testcase => testcase ≠ [] ∧ testcase.length ≤ proxy.maxLen
  | _ => True


end AFLPlusPlus.NetworkProxy
