import FileStorage.Lib.Run
import Mathlib.Data.Finset.Basic
import Mathlib.Data.Fintype.Basic
import Mathlib.Logic.Function.Basic

/-!
# The dispatcher

The loop of `main` in `server.c` and the outer loop of `threadF`, as far as
they move descriptors about: `main` waits in `select`, visits the descriptors
in increasing order against the snapshot `tmpset`, accepts connections, puts
the descriptors that come back through the pipe into the watched set, and turns
a ready client into a queued request. A worker takes the oldest request, and
either writes the descriptor to the pipe or, for CLOSE CONNECTION, closes it.

Conventions:
- a label is one step of `main` or of one worker, with what the environment
  decides: which watched descriptors are ready, what `accept` returns (−1, or
  any number that is not open), and which request a client sends. A client sends
  complete requests, and the reads and writes of the pipe move one integer each,
  in order.
- nobody checks what `accept` has returned. `FD_SET` has 1024 bits to write to
  (`fdSet`): a number behind them leaves the set as it is, where the source
  writes over whatever lies behind it, and −1 hits the bit of 63.
- `nclient` is `volatile` and has no lock: `nclient += 1` and `nclient -= 1` are
  a load and a store, and whatever the other threads do may come in between. It
  counts without a bound.
- taking a ready client out of the watched set, reading its request and pushing
  it is one step; nobody else looks at the set.
- `updatemax` is the source's loop, and its `assert` is the result `none`.
- reading a request from a descriptor that is no connection fails and the
  process exits. After SIGHUP a ready listening socket falls through to there.
- `select` fails, and the process exits, when a descriptor it is to watch is not
  open.
-/

namespace FileStorage.Dispatcher

open FileStorage.Lib

/-- `FD_SETSIZE`: an `fd_set` has a bit for each number below it. -/
def fdSetSize : Nat := 1024

/-- `FD_SET`, where `none` stands for −1: the division by the 64 bits of a word gives
the first word, and shifting by −1 its last bit. -/
def fdSet (set : Finset Nat) : Option Nat → Finset Nat
  | none => insert 63 set
  | some fd => if fd < fdSetSize then insert fd set else set

theorem fdSet_eq {fd : Nat} (h : fd < fdSetSize) (set : Finset Nat) :
    fdSet set (some fd) = insert fd set := if_pos h

/-- The descriptors the server has open for itself; it watches four of them. -/
structure Descriptors where
  server : Nat
  pipe : Nat
  sighup : Nat
  sigint : Nat
  own : Finset Nat
  nodup : [server, pipe, sighup, sigint].Nodup
  server_own : server ∈ own
  pipe_own : pipe ∈ own
  sighup_own : sighup ∈ own
  sigint_own : sigint ∈ own
  small : ∀ fd ∈ own, fd < fdSetSize

/-- A queued request: whose it is, and whether it is CLOSE CONNECTION. -/
structure Req where
  fd : Nat
  close : Bool
  deriving DecidableEq

/-- A worker of the pool: waiting, serving a request, counting a client out (it has
read `nclient` and is to write it back), or about to close the connection. -/
inductive Worker where
  | idle
  | serving (rq : Req)
  | leaving (fd : Nat) (nclient : Int)
  | closing (fd : Nat)
  deriving DecidableEq

/-- Where `main` is. `pass fd tmpset` is about to visit `fd`; `load` and `store` are the
two halves of `nclient += 1`, on the visit of `fd`. -/
inductive MainPc where
  | top
  | pass (fd : Nat) (tmpset : Finset Nat)
  | load (fd : Nat) (tmpset : Finset Nat)
  | store (fd : Nat) (tmpset : Finset Nat) (nclient : Int)
  | stopped
  | exited
  | aborted
  deriving DecidableEq

/-- `connected` are the numbers that belong to an accepted connection. -/
structure State (N : Nat) where
  main : MainPc
  set : Finset Nat
  fdMax : Nat
  queue : List Req
  workers : Fin N → Worker
  inPipe : List Nat
  connected : Nat → Bool
  sigHUP : Bool
  sigINT : Bool
  nclient : Int

/-- `visit` comes with what `accept` returns and what a client asks for, should it get
there; `count` is `main` with `nclient`. -/
inductive Label (N : Nat) where
  | select (ready : Finset Nat)
  | visit (accepted : Option Nat) (close : Bool)
  | count
  | pop (w : Fin N)
  | reinsert (w : Fin N)
  | leave (w : Fin N)
  | close (w : Fin N)

/-- The loop of `updatemax`: the largest element below the bound. -/
def updatemax (set : Finset Nat) : Nat → Option Nat
  | 0 => none
  | i + 1 => if i ∈ set then some i else updatemax set i

def Descriptors.watched (d : Descriptors) : Finset Nat := {d.server, d.pipe, d.sighup, d.sigint}

/-- The server before the first pass. -/
def init (d : Descriptors) (N : Nat) : State N where
  main := .top
  set := [d.server, d.pipe, d.sighup, d.sigint].foldl (fun set fd => fdSet set (some fd)) ∅
  fdMax := max (max (max d.server d.pipe) d.sighup) d.sigint
  queue := []
  workers := fun _ => .idle
  inPipe := []
  connected := fun _ => false
  sigHUP := false
  sigINT := false
  nclient := 0

variable {N : Nat}

/-- A descriptor joins the watched set. -/
def State.watch (s : State N) (fd : Nat) : State N :=
  { s with set := fdSet s.set (some fd), fdMax := max s.fdMax fd }

/-- The number is open in the server. -/
def State.isOpen (d : Descriptors) (s : State N) (fd : Nat) : Bool :=
  s.connected fd || decide (fd ∈ d.own)

def State.setWorker (s : State N) (w : Fin N) (x : Worker) : State N :=
  { s with workers := Function.update s.workers w x }

/-- The top of the loop: stop, or wait until something is ready. -/
def select (d : Descriptors) (s : State N) (ready : Finset Nat) : Option (State N) :=
  if s.sigINT then some { s with main := .stopped }
  else if s.sigHUP && s.nclient == 0 then some { s with main := .stopped }
  else if ∃ fd ∈ s.set, fd ≤ s.fdMax ∧ s.isOpen d fd = false then some { s with main := .exited }
  else if ready ⊆ s.set ∧ (∀ fd ∈ ready, fd ≤ s.fdMax) then some { s with main := .pass 0 ready }
  else none

/-- The branch for a ready client. -/
def request (s : State N) (fd : Nat) (close : Bool) (next : MainPc) : State N :=
  let s := { s with set := s.set.erase fd }
  match if fd = s.fdMax then updatemax s.set s.fdMax else some s.fdMax with
  | none => { s with main := .aborted }
  | some m =>
    let s := { s with fdMax := m }
    if s.connected fd then { s with queue := s.queue ++ [⟨fd, close⟩], main := next }
    else { s with main := .exited }

/-- The branch for a new connection, up to `nclient`. -/
def accept (d : Descriptors) (s : State N) (accepted : Option Nat) (next : MainPc) :
    Option (State N) :=
  match accepted with
  | none => some { s with set := fdSet s.set none, main := next }
  | some fdClient =>
    if s.isOpen d fdClient then none
    else some
      { s.watch fdClient with
        connected := Function.update s.connected fdClient true
        main := next }

/-- Visit one descriptor of the pass. -/
def visit (d : Descriptors) (s : State N) (fd : Nat) (tmpset : Finset Nat)
    (accepted : Option Nat) (close : Bool) : Option (State N) :=
  let next := MainPc.pass (fd + 1) tmpset
  if s.fdMax < fd then some { s with main := .top }
  else if fd ∉ tmpset then some { s with main := next }
  else if fd = d.server ∧ s.sigHUP = false then accept d s accepted (.load fd tmpset)
  else if fd = d.pipe then
    match s.inPipe with
    | [] => none
    | fdBuf :: rest => some { s.watch fdBuf with inPipe := rest, main := next }
  else if fd = d.sigint then some { s with sigINT := true, main := next }
  else if fd = d.sighup then some { s with sigHUP := true, main := next }
  else some (request s fd close next)

/-- The process runs. -/
def State.alive (s : State N) : Bool := s.main != .exited && s.main != .aborted

def step (d : Descriptors) (s : State N) : Label N → Option (State N)
  | .select ready =>
    match s.main with
    | .top => select d s ready
    | _ => none
  | .visit accepted close =>
    match s.main with
    | .pass fd tmpset => visit d s fd tmpset accepted close
    | _ => none
  | .count =>
    match s.main with
    | .load fd tmpset => some { s with main := .store fd tmpset s.nclient }
    | .store fd tmpset nclient =>
      some { s with nclient := nclient + 1, main := .pass (fd + 1) tmpset }
    | _ => none
  | .pop w =>
    match s.alive, s.workers w, s.queue with
    | true, .idle, rq :: queue => some { s.setWorker w (.serving rq) with queue := queue }
    | _, _, _ => none
  | .reinsert w =>
    match s.alive, s.workers w with
    | true, .serving ⟨fd, false⟩ =>
      some { s.setWorker w .idle with inPipe := s.inPipe ++ [fd] }
    | _, _ => none
  | .leave w =>
    match s.alive, s.workers w with
    | true, .serving ⟨fd, true⟩ => some (s.setWorker w (.leaving fd s.nclient))
    | true, .leaving fd nclient =>
      some { s.setWorker w (.closing fd) with nclient := nclient - 1 }
    | _, _ => none
  | .close w =>
    match s.alive, s.workers w with
    | true, .closing fd =>
      some { s.setWorker w .idle with connected := Function.update s.connected fd false }
    | _, _ => none

end FileStorage.Dispatcher
