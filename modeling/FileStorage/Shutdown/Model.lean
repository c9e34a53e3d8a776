import FileStorage.Dispatcher.Clients

/-!
# The end of the server

The wait loop of `threadF`, and what `main` does behind its own loop: one
`pthread_cond_broadcast`, and one `pthread_join` for each worker. The loop of
`main`, and what a worker does with a request, are the dispatcher's
(`FileStorage.Dispatcher.Model`); here they run together with the queue's mutex
and condition variable.

Conventions:
- a worker in its wait loop reads `head`, `sigINT_sigQUIT`, `nclient` and
  `sigHUP` one after another, each in a step of its own, because `main` and the
  other workers write the last three without the mutex.
- `push` takes the mutex, so the step of `main` that queues a request waits for
  it; `pthread_cond_signal` wakes at least one worker, if one is blocked, and
  the environment says which. Waking up is having to take the mutex again.
- `pop` and the unlock behind it are one step, since nobody else looks at the
  queue before.
- `nclient += 1` and `nclient -= 1` are a load and a store, as in the dispatcher's
  model, and so is everything else taken from there: the results of `accept`, the
  1024 bits of the watched set, the failures of `select` and of a read.
- `pushed` and `processed` record the requests that `main` has queued and the
  workers have finished; nothing reads them.
-/

namespace FileStorage.Shutdown

open FileStorage.Lib FileStorage.Dispatcher

/-- Where a worker is in `threadF`: from `head` to `wait` it holds the mutex,
and `busy` is everything between `pop` and the next round. -/
inductive WaitPc where
  | top
  | head
  | sigint
  | nclient
  | sighup
  | wait
  | blocked
  | woken
  | busy
  | left
  deriving DecidableEq

/-- `main` is in its loop, or joins the workers in order. -/
inductive Phase where
  | loop
  | joining (ii : Nat)
  deriving DecidableEq

structure Sys (N : Nat) where
  disp : State N
  lock : Option (Fin N)
  pc : Fin N → WaitPc
  phase : Phase
  pushed : List Req
  processed : List Req

/-- A move. `main` comes with the workers that its `pthread_cond_signal` wakes;
a spurious wakeup is the environment's. -/
inductive Move (N : Nat) where
  | main (l : Label N) (signalled : Finset (Fin N))
  | worker (w : Fin N)
  | spurious (w : Fin N)
  | broadcast
  | join

def init (d : Descriptors) (N : Nat) : Sys N where
  disp := Dispatcher.init d N
  lock := none
  pc := fun _ => .top
  phase := .loop
  pushed := []
  processed := []

variable {N : Nat}

def Sys.goto (s : Sys N) (w : Fin N) (pc : WaitPc) : Sys N :=
  { s with pc := Function.update s.pc w pc }

/-- Give the mutex back. -/
def Sys.unlock (s : Sys N) : Sys N := { s with lock := none }

/-- The blocked workers among `W` wake up. -/
def Sys.wake (s : Sys N) (W : Finset (Fin N)) : Sys N :=
  { s with pc := fun w => if w ∈ W ∧ s.pc w = .blocked then .woken else s.pc w }

/-- A signal wakes somebody, if somebody is blocked. -/
def Sys.signals (s : Sys N) (W : Finset (Fin N)) : Bool :=
  decide ((∃ w, s.pc w = .blocked) → ∃ w ∈ W, s.pc w = .blocked)

/-- A step of the loop of `main`. -/
def mainStep (d : Descriptors) (s : Sys N) (l : Label N) (W : Finset (Fin N)) : Option (Sys N) :=
  if l.ofMain then
    match Dispatcher.step d s.disp l with
    | none => none
    | some disp =>
      match disp.queue.drop s.disp.queue.length with
      | [] => some { s with disp := disp }
      | rqs =>
        if s.lock = none ∧ s.signals W = true then
          some { s.wake W with disp := disp, pushed := s.pushed ++ rqs }
        else none
  else none

/-- A step of a worker that has a request. -/
def busyStep (d : Descriptors) (s : Sys N) (w : Fin N) : Option (Sys N) :=
  match s.disp.workers w with
  | .idle => none
  | .serving ⟨fd, false⟩ =>
    (Dispatcher.step d s.disp (.reinsert w)).map fun disp =>
      { s.goto w .top with disp := disp, processed := s.processed ++ [⟨fd, false⟩] }
  | .serving ⟨_, true⟩ | .leaving _ _ =>
    (Dispatcher.step d s.disp (.leave w)).map fun disp => { s with disp := disp }
  | .closing fd =>
    (Dispatcher.step d s.disp (.close w)).map fun disp =>
      { s.goto w .top with disp := disp, processed := s.processed ++ [⟨fd, true⟩] }

/-- A step of `threadF`. -/
def workerStep (d : Descriptors) (s : Sys N) (w : Fin N) : Option (Sys N) :=
  if s.disp.alive = false then none
  else
    match s.pc w with
    | .top | .woken => if s.lock = none then some { s.goto w .head with lock := some w } else none
    | .head =>
      if s.disp.queue = [] then some (s.goto w .sigint)
      else
        (Dispatcher.step d s.disp (.pop w)).map fun disp =>
          { (s.goto w .busy).unlock with disp := disp }
    | .sigint => some (if s.disp.sigINT then (s.goto w .left).unlock else s.goto w .nclient)
    | .nclient => some (if s.disp.nclient = 0 then s.goto w .sighup else s.goto w .wait)
    | .sighup => some (if s.disp.sigHUP then (s.goto w .left).unlock else s.goto w .wait)
    | .wait => some (s.goto w .blocked).unlock
    | .blocked => none
    | .busy => busyStep d s w
    | .left => none

def step (d : Descriptors) (s : Sys N) : Move N → Option (Sys N)
  | .main l W => if s.phase = .loop then mainStep d s l W else none
  | .worker w => workerStep d s w
  | .spurious w => if s.pc w = .blocked then some (s.goto w .woken) else none
  | .broadcast =>
    if s.phase = .loop ∧ s.disp.main = .stopped then
      some { s.wake Finset.univ with phase := .joining 0 }
    else none
  | .join =>
    match s.phase with
    | .loop => none
    | .joining ii =>
      if h : ii < N then
        if s.pc ⟨ii, h⟩ = .left then some { s with phase := .joining (ii + 1) } else none
      else none

/-! ## The moves of one pass -/

/-- `main` visits this many descriptors, and nobody listens to its signals. -/
def mainVisits (accepted : Option Nat) (close : Bool) (visits : Nat) : List (Move 1) :=
  List.replicate visits (.main (.visit accepted close) ∅)

/-- `main` selects these descriptors and visits the watched ones. -/
def mainPass (ready : Finset Nat) (close : Bool) (visits : Nat) : List (Move 1) :=
  .main (.select ready) ∅ :: mainVisits none close visits

/-- A pass that accepts a connection, as the number `fd`. -/
def mainConnects (fd visits : Nat) : List (Move 1) :=
  .main (.select {8}) ∅ :: mainVisits (some fd) false 9 ++ [.main .count ∅, .main .count ∅] ++
    mainVisits none false visits

/-- A pass over a ready `pipe_sigint_sigquit`, and the end of the loop. -/
def interrupted : List (Move 1) := mainPass {6} false 11 ++ [.main (.select ∅) ∅]

end FileStorage.Shutdown
