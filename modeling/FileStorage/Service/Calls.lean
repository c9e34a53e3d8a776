import FileStorage.Service.Runs
import FileStorage.Wire.Requests
import FileStorage.Wire.Answers

/-!
# Calls over the sockets

The clients, the bytes between them and the server, and the server: each call of
`includes/API.c` writes its request to the socket and blocks in its reader; the
server parses a request off the socket of a client, a worker handles it and
writes the answer. Nothing passes between a client and the server except bytes.

* A client is known by a number of its own; `peer` says which client is at the
  other end of a descriptor. A descriptor that was closed is handed out again.
* `read` blocks until bytes are there, so the reader of a call is run when its
  answer has been written completely.
* A request is read and parsed in one step: the bytes of a request are there as
  soon as the client blocks, and no one else reads them.

`atomicStep` is what the callers may rely on: a call waits until the cache
serves it, at once and as a whole, and then returns what it was served.
-/

namespace FileStorage.Service

open FileStorage.Lib FileStorage.Storage FileStorage.Worker FileStorage.System FileStorage.Wire

/-! ## The clients and the server -/

/-- A client, and what is in its socket. -/
structure Client where
  calling : Option Call
  request : Bytes
  answer : Bytes
  ready : Bool

/-- What happens at the ends of the sockets. -/
inductive Exchange where
  | connected (k fd : Nat)
  | called (k : Nat) (c : Call)
  | taken (k : Nat)
  | returned (k : Nat) (r : Received)

structure Net where
  sys : Sys
  peer : Nat → Nat
  client : Nat → Client
  nextClient : Nat
  log : List Exchange

inductive NetLabel where
  | connect (fd : Nat)
  | call (k : Nat) (c : Call)
  | take (fd : Nat) (sched : List Read)
  | work (fd : Nat)
  | receive (k : Nat) (sched : List Read)

/-- The bytes that a worker writes. -/
def Output.bytes : Output → Bytes
  | .file pathname size content =>
    sendMsgFileContent [49, comma] pathname (decimal size.toNat) content
  | .answer a | .bye a => answerMsg a

/-- The client function behind its `sendMsg`. -/
def callReceive (fuel : Nat) (c : Conn) : Call → Except Stop (Received × Conn)
  | .openFile _ _ => openFileAnswer c >>= fun r => .ok (.evicted r.1.1 r.1.2, r.2)
  | .appendToFile _ _ => appendToFileAnswer c >>= fun r => .ok (.evicted r.1.1 r.1.2, r.2)
  | .closeFile _ => closeFileAnswer c >>= fun r => .ok (.value r.1, r.2)
  | .closeConnection _ => closeConnectionAnswer c >>= fun r => .ok (.value r.1, r.2)
  | .readFile _ => readFileAnswer c >>= fun r => .ok (.content r.1.1 r.1.2.1 r.1.2.2, r.2)
  | .readNFiles _ => readNFilesAnswer fuel c >>= fun r => .ok (.files r.1.1 r.1.2, r.2)

namespace Net

def init (ram nfile : Int) (sockname : Bytes) : Net :=
  ⟨System.init ram nfile sockname, fun _ => 0, fun _ => ⟨none, [], [], false⟩, 0, []⟩

def setClient (s : Net) (k : Nat) (cl : Client) : Net :=
  { s with client := Function.update s.client k cl }

/-- The server accepts a new client. -/
def connected (s : Net) (fd : Nat) : Net :=
  { s with
    sys := s.sys.accepted fd
    peer := Function.update s.peer fd s.nextClient
    nextClient := s.nextClient + 1
    log := .connected s.nextClient fd :: s.log }

/-- A client writes its request and waits. -/
def called (s : Net) (k : Nat) (c : Call) : Net :=
  { s.setClient k { s.client k with
      calling := some c
      request := (s.client k).request ++ c.bytes } with
    log := .called k c :: s.log }

/-- The server has parsed the request of a client, `rest` is left. -/
def taken (s : Net) (fd : Nat) (op : Op) (rest : Bytes) : Net :=
  { s.setClient (s.peer fd) { s.client (s.peer fd) with request := rest } with
    sys := s.sys.taken fd op
    log := .taken (s.peer fd) :: s.log }

/-- The worker of `fd` makes a step and writes what it sends. -/
def worked (s : Net) (fd : Nat) (j : Job) (e : Effect) : Net :=
  { s.setClient (s.peer fd) { s.client (s.peer fd) with
      answer := (s.client (s.peer fd)).answer ++ (shown e.event).flatMap Output.bytes
      ready := e.pc.isNone } with
    sys := s.sys.after fd j e }

/-- A call returns, `rest` is left. -/
def returned (s : Net) (k : Nat) (r : Received) (rest : Bytes) : Net :=
  { s.setClient k { s.client k with calling := none, answer := rest, ready := false } with
    log := .returned k r :: s.log }

/-- The server leaves the calls of the clients alone. -/
theorem calling_update {client : Nat → Client} {cl : Client} {k k' : Nat}
    (h : cl.calling = (client k').calling) :
    (Function.update client k' cl k).calling = (client k).calling := by
  by_cases hk : k = k'
  · rw [hk, Function.update_self, h]
  · rw [Function.update_of_ne hk]

theorem calling_taken (s : Net) (fd : Nat) (op : Op) (rest : Bytes) (k : Nat) :
    ((s.taken fd op rest).client k).calling = (s.client k).calling := calling_update rfl

theorem calling_worked (s : Net) (fd : Nat) (j : Job) (e : Effect) (k : Nat) :
    ((s.worked fd j e).client k).calling = (s.client k).calling := calling_update rfl

end Net

def netStep (s : Net) : NetLabel → Option Net
  | .connect fd => if s.sys.connected fd then none else some (s.connected fd)
  | .call k c =>
    if k < s.nextClient ∧ (s.client k).calling = none then some (s.called k c) else none
  | .take fd sched =>
    if (s.client (s.peer fd)).request = [] then none
    else
      match Wire.serve ⟨sched, (s.client (s.peer fd)).request⟩ with
      | .ok (some op, c) =>
        match step s.sys (.request fd op) with
        | none => none
        | some _ => some (s.taken fd op c.stream)
      | _ => none
  | .work fd =>
    match s.sys.job fd with
    | none => none
    | some j => (wstep j.rq j.pc s.sys.shared).map (s.worked fd j)
  | .receive k sched =>
    match (s.client k).calling with
    | none => none
    | some c =>
      if (s.client k).ready then
        match callReceive ((s.client k).answer.length + 1) ⟨sched, (s.client k).answer⟩ c with
        | .ok (r, rest) => some (s.returned k r rest.stream)
        | .error _ => none
      else none

/-- What a step can be. -/
theorem netStep_cases {s t : Net} {l : NetLabel} (h : netStep s l = some t) :
    (∃ fd, l = .connect fd ∧ s.sys.connected fd = false ∧ t = s.connected fd) ∨
    (∃ k c, l = .call k c ∧ k < s.nextClient ∧ (s.client k).calling = none ∧ t = s.called k c) ∨
    (∃ fd sched op c, l = .take fd sched ∧ (s.client (s.peer fd)).request ≠ [] ∧
      Wire.serve ⟨sched, (s.client (s.peer fd)).request⟩ = .ok (some op, c) ∧
      step s.sys (.request fd op) = some (s.sys.taken fd op) ∧ t = s.taken fd op c.stream) ∨
    (∃ fd j e, l = .work fd ∧ s.sys.job fd = some j ∧
      wstep j.rq j.pc s.sys.shared = some e ∧ t = s.worked fd j e) ∨
    (∃ k sched c r rest, l = .receive k sched ∧ (s.client k).calling = some c ∧
      (s.client k).ready = true ∧
      callReceive ((s.client k).answer.length + 1) ⟨sched, (s.client k).answer⟩ c =
        .ok (r, rest) ∧ t = s.returned k r rest.stream) := by
  cases l with
  | connect fd =>
    simp only [netStep] at h
    split at h
    · cases h
    · next hc => exact .inl ⟨fd, rfl, by simpa using hc, (Option.some.inj h).symm⟩
  | call k c =>
    simp only [netStep] at h
    split at h
    · next hc => exact .inr (.inl ⟨k, c, rfl, hc.1, hc.2, (Option.some.inj h).symm⟩)
    · cases h
  | take fd sched =>
    simp only [netStep] at h
    split at h
    · cases h
    · next hne =>
      split at h
      · next op c hserve =>
        cases hstep : step s.sys (.request fd op) with
        | none =>
          rw [hstep] at h
          cases h
        | some u =>
          rw [hstep] at h
          refine .inr (.inr (.inl ⟨fd, sched, op, c, rfl, hne, hserve, ?_,
            (Option.some.inj h).symm⟩))
          rcases step_cases hstep with ⟨_, hl, -⟩ | ⟨fd', op', hl, -, -, rfl⟩ | ⟨_, _, _, hl, -⟩
          · cases hl
          · cases hl
            exact hstep
          · cases hl
      · cases h
  | work fd =>
    simp only [netStep] at h
    split at h
    · cases h
    · next j hj =>
      obtain ⟨e, he, rfl⟩ := Option.map_eq_some_iff.mp h
      exact .inr (.inr (.inr (.inl ⟨fd, j, e, rfl, hj, he, rfl⟩)))
  | receive k sched =>
    simp only [netStep] at h
    split at h
    · cases h
    · next c hc =>
      split at h
      · next hready =>
        split at h
        · next r rest hr =>
          exact .inr (.inr (.inr (.inr ⟨k, sched, c, r, rest, rfl, hc, hready, hr,
            (Option.some.inj h).symm⟩)))
        · cases h
      · cases h

/-! ## What the callers may rely on -/

/-- The value of an answer, and the removed files it names. -/
def answerValue (a : Answer) : Int := if a = .ko then -1 else 0

theorem answerValue_cases (a : Answer) :
    (a = .ko ∧ answerValue a = -1) ∨ (a ≠ .ko ∧ answerValue a = 0) := by
  by_cases ha : a = .ko
  · exact .inl ⟨ha, if_pos ha⟩
  · exact .inr ⟨ha, if_neg ha⟩

def answerNames : Answer → List Bytes
  | .okRemoved rmPath => tokens comma (rmPath.drop 1)
  | _ => []

/-- A file as `readNFiles` gets it. -/
def Output.received : Output → Option (Option Bytes × Nat × Option Bytes)
  | .file pathname size content => some (some pathname, size.toNat, some content)
  | _ => none

/-- What a call should return for what the service sends. -/
def received : Call → List Output → Received
  | .openFile _ _, [.answer a] | .appendToFile _ _, [.answer a] =>
    .evicted (answerValue a) (answerNames a)
  | .readFile _, [.file _ size content] => .content 0 size.toNat (some content)
  | .readNFiles _, outs =>
    .files (if outs.getLast? = some (.answer .ko) then -1 else 0) (outs.filterMap Output.received)
  | .closeFile _, [.answer a] | .closeConnection _, [.bye a] => .value (answerValue a)
  | _, _ => .content (-1) 0 none

inductive Pending where
  | nothing
  | asked (c : Call)
  | due (r : Received)
  deriving DecidableEq

/-- The cache, the descriptors of the clients, and their calls. -/
structure Atomic (lim : Limits) where
  cache : Cache lim
  fd : Nat → Nat
  pending : Nat → Pending

/-- A call of one client is served as a whole. -/
def Atomic.taken {lim : Limits} (m : Atomic lim) (k : Nat) (c : Call) : Atomic lim where
  cache := m.cache.serve (m.fd k) c.op
  fd := m.fd
  pending := Function.update m.pending k
    (.due (received c (Service.serve lim (m.fd k) c.op m.cache.entries).2))

def atomicStep {lim : Limits} (m : Atomic lim) : Exchange → Option (Atomic lim)
  | .connected k fd => some { m with fd := Function.update m.fd k fd }
  | .called k c =>
    if m.pending k = .nothing then
      some { m with pending := Function.update m.pending k (.asked c) }
    else none
  | .taken k =>
    match m.pending k with
    | .asked c => some (m.taken k c)
    | _ => none
  | .returned k r =>
    if m.pending k = .due r then
      some { m with pending := Function.update m.pending k .nothing }
    else none

/-- No files, no calls. -/
def Atomic.empty (lim : Limits) (hram : 0 ≤ lim.ram) (hslots : 0 ≤ lim.slots) : Atomic lim :=
  ⟨⟨[], bounded_nil hram hslots⟩, fun _ => 0, fun _ => .nothing⟩

end FileStorage.Service
