import FileStorage.Worker.Model
import FileStorage.Lib.Run

/-!
# The server as a system of workers

Any number of clients are connected, each known by its descriptor. A client has
at most one request being handled: `main` takes its descriptor out of the
watched set before it queues a request and a worker puts it back after the
answer. So the workers are indexed by the descriptor they serve, and a label
of the step function says who moves:

* `accept fd`: the kernel hands out a descriptor that is not in use, perhaps
  the number of a connection closed before;
* `request fd op`: a worker takes the request of a connected client;
* `work fd`: the worker serving `fd` executes one atomic step.

Every order of labels is a run, so every interleaving is covered. `log` is the
history of the events, newest first; no step reads it.
-/

namespace FileStorage.System

open FileStorage.Lib FileStorage.Storage FileStorage.Worker

/-- A worker with the request it holds. -/
structure Job where
  rq : Request
  pc : Pc

structure Sys where
  shared : Shared
  connected : Nat → Bool
  job : Nat → Option Job
  nextId : Nat
  log : List Event

/-- Where the worker of a client is. -/
def Sys.pc (s : Sys) (fd : Nat) : Option Pc := (s.job fd).map (·.pc)

inductive Label where
  | accept (fd : Nat)
  | request (fd : Nat) (op : Op)
  | work (fd : Nat)
  deriving DecidableEq

/-- The server after `createStorage(ram, nfile)`, before the first client. -/
def init (ram nfile : Int) (sockname : Bytes) : Sys where
  shared := ⟨createStorage ram nfile, ⟨0, 0, 0⟩, sockname⟩
  connected := fun _ => false
  job := fun _ => none
  nextId := 0
  log := []

/-- `close` of the descriptor ends the connection; nothing else does. -/
def connectedAfter (connected : Nat → Bool) (fd : Nat) (ev : Option Event) (fd' : Nat) : Bool :=
  match ev with
  | some (.disconnected _ _) => if fd' = fd then false else connected fd'
  | _ => connected fd'

/-- The system after the worker of `fd` made a step with effect `e`. -/
def Sys.after (s : Sys) (fd : Nat) (j : Job) (e : Effect) : Sys where
  shared := e.shared
  connected := connectedAfter s.connected fd e.event
  job := Function.update s.job fd (e.pc.map (Job.mk j.rq))
  nextId := s.nextId
  log := e.event.toList ++ s.log

/-- The system after a request of `fd` was taken. -/
def Sys.taken (s : Sys) (fd : Nat) (op : Op) : Sys :=
  { s with
    job := Function.update s.job fd (some ⟨⟨s.nextId, fd, op⟩, entry op⟩)
    nextId := s.nextId + 1
    log := .requested ⟨s.nextId, fd, op⟩ :: s.log }

/-- The system after a connection got the descriptor `fd`. -/
def Sys.accepted (s : Sys) (fd : Nat) : Sys :=
  { s with
    connected := Function.update s.connected fd true
    log := .accepted fd :: s.log }

def step (s : Sys) : Label → Option Sys
  | .accept fd => if s.connected fd then none else some (s.accepted fd)
  | .request fd op =>
    match s.job fd with
    | some _ => none
    | none => if s.connected fd then some (s.taken fd op) else none
  | .work fd =>
    match s.job fd with
    | none => none
    | some j => (wstep j.rq j.pc s.shared).map (s.after fd j)

/-- What a step of the system can be. -/
theorem step_cases {s t : Sys} {l : Label} (h : step s l = some t) :
    (∃ fd, l = .accept fd ∧ s.connected fd = false ∧ t = s.accepted fd) ∨
    (∃ fd op, l = .request fd op ∧ s.job fd = none ∧ s.connected fd = true ∧ t = s.taken fd op) ∨
    (∃ fd j e, l = .work fd ∧ s.job fd = some j ∧ wstep j.rq j.pc s.shared = some e ∧
      t = s.after fd j e) := by
  cases l with
  | accept fd =>
    simp only [step] at h
    split at h
    · cases h
    · next hc => exact .inl ⟨fd, rfl, by simpa using hc, by simpa using h.symm⟩
  | request fd op =>
    simp only [step] at h
    split at h
    · cases h
    · next hj =>
      split at h
      · next hc => exact .inr (.inl ⟨fd, op, rfl, hj, hc, by simpa using h.symm⟩)
      · cases h
  | work fd =>
    simp only [step] at h
    split at h
    · cases h
    · next j hj =>
      obtain ⟨e, he, rfl⟩ := Option.map_eq_some_iff.mp h
      exact .inr (.inr ⟨fd, j, e, rfl, hj, he, rfl⟩)

/-! ## Looking up a job -/

theorem job_after {s : Sys} {fd fd' : Nat} {j j' : Job} {e : Effect}
    (h : (s.after fd j e).job fd' = some j') :
    (fd' = fd ∧ ∃ pc, e.pc = some pc ∧ j' = ⟨j.rq, pc⟩) ∨ (fd' ≠ fd ∧ s.job fd' = some j') := by
  by_cases hfd : fd' = fd
  · subst hfd
    change Function.update s.job fd' _ fd' = some j' at h
    rw [Function.update_self] at h
    obtain ⟨pc, hpc, rfl⟩ := Option.map_eq_some_iff.mp h
    exact .inl ⟨rfl, pc, hpc, rfl⟩
  · change Function.update s.job fd _ fd' = some j' at h
    rw [Function.update_of_ne hfd] at h
    exact .inr ⟨hfd, h⟩

theorem job_taken {s : Sys} {fd fd' : Nat} {op : Op} {j' : Job}
    (h : (s.taken fd op).job fd' = some j') :
    (fd' = fd ∧ j' = ⟨⟨s.nextId, fd, op⟩, entry op⟩) ∨ (fd' ≠ fd ∧ s.job fd' = some j') := by
  by_cases hfd : fd' = fd
  · subst hfd
    change Function.update s.job fd' _ fd' = some j' at h
    rw [Function.update_self] at h
    exact .inl ⟨rfl, (Option.some.inj h).symm⟩
  · change Function.update s.job fd _ fd' = some j' at h
    rw [Function.update_of_ne hfd] at h
    exact .inr ⟨hfd, h⟩

theorem pc_after {s : Sys} {fd fd' : Nat} {j : Job} {e : Effect} {pc : Pc}
    (h : (s.after fd j e).pc fd' = some pc) :
    (fd' = fd ∧ e.pc = some pc) ∨ (fd' ≠ fd ∧ s.pc fd' = some pc) := by
  obtain ⟨i, hi, rfl⟩ := Option.map_eq_some_iff.mp h
  rcases job_after hi with ⟨rfl, q, hq, rfl⟩ | ⟨hne, hold⟩
  · exact .inl ⟨rfl, hq⟩
  · exact .inr ⟨hne, by unfold Sys.pc; rw [hold]; rfl⟩

theorem pc_taken {s : Sys} {fd fd' : Nat} {op : Op} {pc : Pc}
    (h : (s.taken fd op).pc fd' = some pc) :
    (fd' = fd ∧ pc = entry op) ∨ (fd' ≠ fd ∧ s.pc fd' = some pc) := by
  obtain ⟨i, hi, rfl⟩ := Option.map_eq_some_iff.mp h
  rcases job_taken hi with ⟨rfl, rfl⟩ | ⟨hne, hold⟩
  · exact .inl ⟨rfl, rfl⟩
  · exact .inr ⟨hne, by unfold Sys.pc; rw [hold]; rfl⟩

/-! ## Runs of a few clients -/

/-- `k` steps of the worker of `fd`. -/
def works (fd k : Nat) : List Label := List.replicate k (.work fd)

/-- The client that a label is about. -/
def Label.client : Label → Nat
  | .accept fd => fd
  | .request fd _ => fd
  | .work fd => fd

/-- The moving party is one of the clients `fds` or its worker. -/
def among (fds : List Nat) (_ : Sys) (l : Label) : Bool := fds.contains l.client

/-- Only the clients `fds` are served. -/
def Only (fds : List Nat) (s : Sys) : Prop := ∀ fd j, s.job fd = some j → fd ∈ fds

/-- Where only some clients move there are no other workers. -/
theorem only_of_among {fds : List Nat} {ram nfile : Int} {sockname : Bytes} {s : Sys}
    (h : Reach step (fun s l => among fds s l = true) (init ram nfile sockname) s) :
    Only fds s := by
  refine h.invariant (Only fds) (by intro fd' j hj; cases hj) ?_
  intro s l t hi hg hs fd' j hj
  have hclient : l.client ∈ fds := List.contains_iff_mem.mp hg
  rcases step_cases hs with ⟨a, rfl, -, rfl⟩ | ⟨a, op, rfl, -, -, rfl⟩ | ⟨a, i, e, rfl, -, -, rfl⟩
  · exact hi fd' j hj
  · rcases job_taken hj with ⟨rfl, -⟩ | ⟨-, hold⟩
    · exact hclient
    · exact hi fd' j hold
  · rcases job_after hj with ⟨rfl, -⟩ | ⟨-, hold⟩
    · exact hclient
    · exact hi fd' j hold

/-- The workers of `fds` other than that of `fd` pass a test. -/
def others (fds : List Nat) (s : Sys) (fd : Nat) (test : Pc → Bool) : Bool :=
  fds.all fun fd' => fd' == fd || (s.pc fd').all test

theorem others_pass {fds : List Nat} {s : Sys} {fd : Nat} {test : Pc → Bool} (hs : Only fds s)
    (h : others fds s fd test = true) :
    ∀ fd' pc, fd' ≠ fd → s.pc fd' = some pc → test pc = true := by
  intro fd' pc hne hpc
  obtain ⟨j, hj, -⟩ := Option.map_eq_some_iff.mp hpc
  have hpass := List.all_eq_true.mp h fd' (hs fd' j hj)
  rw [hpc] at hpass
  rcases Bool.or_eq_true_iff.mp hpass with he | ht
  · exact absurd (beq_iff_eq.mp he) hne
  · exact ht

/-- A condition on all workers is met where it is tested on those there are. -/
theorem reach_of_test {fds : List Nat} {ram nfile : Int} {sockname : Bytes} {s : Sys}
    {test : Sys → Label → Bool} {G : Sys → Label → Prop}
    (htest : ∀ s l, Only fds s → test s l = true → G s l)
    (h : Reach step (fun s l => (among fds s l && test s l) = true) (init ram nfile sockname) s) :
    Reach step G (init ram nfile sockname) s := by
  refine h.strengthen fun s l hs hl => ?_
  have hamong : Reach step (fun s l => among fds s l = true) (init ram nfile sockname) s :=
    hs.mono fun s l hg => (Bool.and_eq_true_iff.mp hg).1
  exact htest s l (only_of_among hamong) (Bool.and_eq_true_iff.mp hl).2

end FileStorage.System
