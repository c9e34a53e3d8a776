import FileStorage.Lib.Run
import Mathlib.Logic.Function.Basic

/-!
# The request queue

`push` and `pop` of `util_server.c`, on a heap of requests. `main` allocates a
request and pushes it; a worker that finds `head` set pops one, and frees it
when it has answered. Each of the two functions runs under the queue's lock, so
it is one step.

Conventions:
- a pointer is an address or `NULL` (`none`), and reading or writing through a
  pointer to nothing makes the function undefined (`none`).
- `malloc` returns an address that is not allocated, which may be the address of
  a request that was freed.
- what the queue does not look at (`api_id`, `sms_info`, ...) is the type `ρ` of
  the parameter `info`.
- `count_rq` is an `int` and counts one request of each client at most, so it
  stays far below its range.
- `pushed` and `popped` record what has gone in and out; nothing reads them.
-/

namespace FileStorage.RequestQueue

open FileStorage.Lib

abbrev Addr := Nat

abbrev Ptr := Option Addr

/-- A request. -/
structure SmsRequest (ρ : Type) where
  info : ρ
  son : Ptr
  father : Ptr

/-- The queue, and the heap that its requests live in. -/
structure Queue (ρ : Type) where
  heap : Addr → Option (SmsRequest ρ)
  countRq : Int
  head : Ptr
  last : Ptr

variable {ρ : Type}

/-- `createQueue`. -/
def createQueue (ρ : Type) : Queue ρ where
  heap := fun _ => none
  countRq := 0
  head := none
  last := none

namespace Queue

/-- A new request, with nothing linked to it. -/
def malloc (queue : Queue ρ) (a : Addr) (info : ρ) : Queue ρ :=
  { queue with heap := Function.update queue.heap a (some ⟨info, none, none⟩) }

/-- `free` of a request. -/
def free (queue : Queue ρ) (a : Addr) : Queue ρ :=
  { queue with heap := Function.update queue.heap a none }

/-- Write to the fields of the request behind a pointer. -/
def write (queue : Queue ρ) (p : Ptr) (f : SmsRequest ρ → SmsRequest ρ) : Option (Queue ρ) := do
  let a ← p
  let rq ← queue.heap a
  some { queue with heap := Function.update queue.heap a (some (f rq)) }

end Queue

/-- `push`: the new request goes in front of the head. -/
def push (queue : Queue ρ) (smsRequest : Addr) : Option (Queue ρ) :=
  if queue.head = none ∧ queue.last = none then
    some
      { queue with
        head := some smsRequest
        last := some smsRequest
        countRq := queue.countRq + 1 }
  else do
    let tmpHead := queue.head
    let queue := { queue with head := some smsRequest }
    let queue ← queue.write (some smsRequest) (fun x => { x with son := tmpHead })
    let queue ← queue.write tmpHead (fun x => { x with father := some smsRequest })
    some { queue with countRq := queue.countRq + 1 }

/-- `pop`: the request at the end, `none` where the code would follow no pointer. -/
def pop (queue : Queue ρ) : Option (Addr × Queue ρ) := do
  let tmpRq ← queue.last
  let rq ← queue.heap tmpRq
  match rq.father with
  | some tmpSms =>
    let queue ← queue.write (some tmpSms) (fun x => { x with son := none })
    some (tmpRq, { queue with last := some tmpSms, countRq := queue.countRq - 1 })
  | none =>
    some (tmpRq, { queue with head := none, last := none, countRq := queue.countRq - 1 })

/-! ## The threads -/

/-- The queue and the requests that the workers have in hand. -/
structure State (ρ : Type) (N : Nat) where
  queue : Queue ρ
  held : Fin N → Ptr
  pushed : List ρ
  popped : List ρ

/-- A push of main, and a worker that takes a request or frees it. -/
inductive Label (ρ : Type) (N : Nat) where
  | push (a : Addr) (info : ρ)
  | pop (w : Fin N)
  | free (w : Fin N)

/-- No request is queued and none is held. -/
def init (ρ : Type) (N : Nat) : State ρ N where
  queue := createQueue ρ
  held := fun _ => none
  pushed := []
  popped := []

variable {N : Nat}

/-- A worker pops only behind its test of `head`, and one request at a time. -/
def step (s : State ρ N) : Label ρ N → Option (State ρ N)
  | .push a info =>
    match s.queue.heap a with
    | some _ => none
    | none => do
      let queue ← push (s.queue.malloc a info) a
      some { s with queue := queue, pushed := s.pushed ++ [info] }
  | .pop w =>
    match s.held w, s.queue.head with
    | none, some _ => do
      let (a, queue) ← pop s.queue
      let rq ← queue.heap a
      some
        { s with
          queue := queue
          held := Function.update s.held w (some a)
          popped := s.popped ++ [rq.info] }
    | _, _ => none
  | .free w =>
    match s.held w with
    | none => none
    | some a =>
      some { s with queue := s.queue.free a, held := Function.update s.held w none }

end FileStorage.RequestQueue
