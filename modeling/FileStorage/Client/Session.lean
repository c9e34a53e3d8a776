import FileStorage.Client.Model
import FileStorage.System.Base
import FileStorage.Wire.Answers
import FileStorage.Wire.Requests
import FileStorage.Worker.Holding

/-!
# A client and the server

A `Session` is the server together with what the program of one client, the one
with the descriptor `fd`, still has to do. A call of the program becomes a request
of `fd` (`send`), the worker of `fd` handles it (`work`), and with its answer the
program goes on; a client that takes it later does nothing in between. All other
clients and their workers move as they like (`others`). Only the calls of
`openAppendClose` are sent, and what it asks the file system is answered by anything
(`content`).

`openAppendClose` gives up what it has opened with `closeFile`, but it returns
before when `appendToFile` has failed. `Releases` says which programs are right as
long as a refusal means that the server has taken the file away, and
`keepsTrack` are the steps at which the server does not refuse otherwise.
-/

namespace FileStorage.Client

open FileStorage.Lib FileStorage.Storage FileStorage.Worker FileStorage.System

/-! ## Calls and answers -/

/-- The call as a message of the API. -/
def Query.call : Query → Option Wire.Call
  | openFile pathname .create => some (.openFile pathname .create)
  | openFile pathname .openIt => some (.openFile pathname .open)
  | appendToFile pathname buf => some (.appendToFile pathname buf)
  | closeFile pathname => some (.closeFile pathname)
  | _ => none

/-- The request that the server makes of it, which is what arrives for a pathname
without a comma (`Wire.Call.Survives` has the exact condition). -/
def Query.op (q : Query) : Option Op := q.call.map Wire.Call.op

theorem op_cases {q : Query} {op : Op} (h : q.op = some op) :
    (∃ pathname flag text, q = .openFile pathname flag ∧ op = .openFile pathname text) ∨
    (∃ pathname buf, q = .appendToFile pathname buf ∧ op = .appendToFile pathname buf) ∨
    (∃ pathname, q = .closeFile pathname ∧ op = .closeFile pathname) := by
  obtain ⟨c, hc, rfl⟩ := Option.map_eq_some_iff.mp h
  unfold Query.call at hc
  split at hc
  · next p =>
    cases hc
    exact .inl ⟨p, .create, _, rfl, rfl⟩
  · next p =>
    cases hc
    exact .inl ⟨p, .openIt, _, rfl, rfl⟩
  · next p buf =>
    cases hc
    exact .inr (.inl ⟨p, buf, rfl, rfl⟩)
  · next p =>
    cases hc
    exact .inr (.inr ⟨p, rfl, rfl⟩)
  · cases hc

/-- What the calls return for a text answer: 0 if it begins with `"0"`. -/
def returned : Answer → Int
  | .ko => -1
  | .ok => 0
  | .okRemoved _ => 0

/-- It is the value that the API reads from the text. -/
theorem returned_answer (o : Wire.Outcome) : returned o.answer = o.value := by
  cases o <;> rfl

theorem returned_cases (a : Answer) :
    (a = .ko ∧ returned a = -1) ∨ (a ≠ .ko ∧ returned a = 0) := by
  cases a with
  | ko => exact .inl ⟨rfl, rfl⟩
  | ok => exact .inr ⟨nofun, rfl⟩
  | okRemoved rm => exact .inr ⟨nofun, rfl⟩

def Query.answer : (q : Query) → Worker.Answer → Option q.Answer
  | openFile _ _, a => some (returned a)
  | appendToFile _ _, a => some (returned a)
  | closeFile _, a => some (returned a)
  | _, _ => none

structure Session where
  sys : Sys
  program : Program Int

inductive Session.Label where
  | send
  | work
  | content (buf : Option Bytes)
  | others (l : System.Label)

/-- The client that a step of the server is about. -/
def party : System.Label → Nat
  | .accept fd => fd
  | .request fd _ => fd
  | .work fd => fd

def Session.step (fd : Nat) (s : Session) : Session.Label → Option Session
  | .send =>
    match s.program with
    | .ask q _ =>
      q.op.bind fun op => (System.step s.sys (.request fd op)).map fun t => { s with sys := t }
    | _ => none
  | .work =>
    (System.step s.sys (.work fd)).bind fun t =>
      match t.job fd with
      | some _ => some { s with sys := t }
      | none =>
        match s.program, t.log with
        | .ask q next, .answered _ a :: _ => (q.answer a).map fun r => ⟨t, next r⟩
        | _, _ => none
  | .content buf =>
    match s.program with
    | .ask (.content _) next => some { s with program := next buf }
    | _ => none
  | .others l =>
    if party l = fd then none else (System.step s.sys l).map fun t => { s with sys := t }

/-- What a step of a session can be. -/
theorem Session.step_cases {fd : Nat} {s t : Session} {l : Session.Label}
    (h : s.step fd l = some t) :
    (∃ q next op u, l = .send ∧ s.program = .ask q next ∧ q.op = some op ∧
      System.step s.sys (.request fd op) = some u ∧ t = { s with sys := u }) ∨
    (∃ u, l = .work ∧ System.step s.sys (.work fd) = some u ∧
      ((∃ j, u.job fd = some j ∧ t = { s with sys := u }) ∨
        ∃ q next rq a log r, u.job fd = none ∧ s.program = .ask q next ∧
          u.log = .answered rq a :: log ∧ q.answer a = some r ∧ t = ⟨u, next r⟩)) ∨
    (∃ buf p next, l = .content buf ∧ s.program = .ask (.content p) next ∧
      t = { s with program := next buf }) ∨
    (∃ k u, l = .others k ∧ party k ≠ fd ∧ System.step s.sys k = some u ∧
      t = { s with sys := u }) := by
  cases l with
  | send =>
    simp only [Session.step] at h
    split at h
    · next q next hq =>
      obtain ⟨op, hop, h⟩ := Option.bind_eq_some_iff.mp h
      obtain ⟨u, hu, rfl⟩ := Option.map_eq_some_iff.mp h
      exact .inl ⟨q, next, op, u, rfl, hq, hop, hu, rfl⟩
    · cases h
  | work =>
    obtain ⟨u, hu, h⟩ := Option.bind_eq_some_iff.mp h
    refine .inr (.inl ⟨u, rfl, hu, ?_⟩)
    split at h
    · next j hj => exact .inl ⟨j, hj, (Option.some.inj h).symm⟩
    · next hj =>
      split at h
      · next q next rq a log hq hlog =>
        obtain ⟨r, hr, rfl⟩ := Option.map_eq_some_iff.mp h
        exact .inr ⟨q, next, rq, a, log, r, hj, hq, hlog, hr, rfl⟩
      · cases h
  | content buf =>
    simp only [Session.step] at h
    split at h
    · next p next hq =>
      exact .inr (.inr (.inl ⟨buf, p, next, rfl, hq, (Option.some.inj h).symm⟩))
    · cases h
  | others k =>
    simp only [Session.step] at h
    split at h
    · cases h
    · next hne =>
      obtain ⟨u, hu, rfl⟩ := Option.map_eq_some_iff.mp h
      exact .inr (.inr (.inr ⟨k, u, rfl, hne, hu, rfl⟩))

/-- What the program has returned. -/
def Session.result (s : Session) : Option Int :=
  match s.program with
  | .done r => some r
  | _ => none

/-- The rules of the calls. `may` says whether the client can hold a file that it
has got on the way, `next` what comes behind an answer. -/
def releasesCall (may : Bool) : (q : Query) → (q.Answer → Bool → Prop) → Prop
  | .openFile _ _, next => may = false ∧ next (-1 : Int) false ∧ next (0 : Int) true
  | .appendToFile _ _, next => next (-1 : Int) false ∧ next (0 : Int) true
  | .closeFile _, next => next (-1 : Int) false ∧ next (0 : Int) false
  | .content _, next => ∀ buf, next buf may
  | _, _ => False

/-- The program holds nothing when it returns. -/
def Releases : Program Int → Bool → Prop
  | .done _, may => may = false
  | .exit, _ => True
  | .ask q next, may => releasesCall may q fun r => Releases (next r)

/-- Behind the answer to a call: the program may go on holding something only if the
answer is no refusal, and not after `closeFile`. -/
theorem Releases.answered {q : Query} {next : q.Answer → Program Int} {may : Bool} {op : Op}
    {a : Answer} {r : q.Answer} (h : Releases (.ask q next) may) (hop : q.op = some op)
    (hr : q.answer a = some r) :
    ((a ≠ .ko ∧ ∀ p, op ≠ .closeFile p) → Releases (next r) true) ∧
      (¬ (a ≠ .ko ∧ ∀ p, op ≠ .closeFile p) → Releases (next r) false) := by
  rcases op_cases hop with ⟨p, flag, text, rfl, rfl⟩ | ⟨p, buf, rfl, rfl⟩ | ⟨p, rfl, rfl⟩ <;>
    cases hr <;> rcases returned_cases a with ⟨rfl, hret⟩ | ⟨hne, hret⟩
  · exact ⟨fun hmay => absurd rfl hmay.1, fun _ => h.2.1⟩
  · exact ⟨fun _ => hret ▸ h.2.2, fun hnot => absurd ⟨hne, nofun⟩ hnot⟩
  · exact ⟨fun hmay => absurd rfl hmay.1, fun _ => h.1⟩
  · exact ⟨fun _ => hret ▸ h.2, fun hnot => absurd ⟨hne, nofun⟩ hnot⟩
  · exact ⟨fun hmay => absurd rfl hmay.1, fun _ => h.1⟩
  · exact ⟨fun hmay => absurd rfl (hmay.2 p), fun _ => hret ▸ h.2⟩

/-! ## The files that the client has got -/

/-- The client owns the file. -/
def owns (s : Sys) (fd : Nat) (n : NodeId) : Bool :=
  (s.shared.storage.file n).any fun f => f.fdClientId == (fd : Int)

/-- The files it owns now and did not own at the start. -/
def gained (start s : Sys) (fd : Nat) : List NodeId :=
  (List.range s.shared.storage.brk).filter fun n => owns s fd n && !owns start fd n

section

variable {start s : Sys} {fd : Nat} {n : NodeId}

end

section

variable {start : Sys} {fd : Nat} {s t : Session}

end

/-- `k` steps of the own worker. -/
def works (k : Nat) : List Session.Label := List.replicate k .work

/-- A whole request of another client. -/
def foreign (fd : Nat) (op : Op) (k : Nat) : List Session.Label :=
  .others (.request fd op) :: List.replicate k (.others (.work fd))

end FileStorage.Client
