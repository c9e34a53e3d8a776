import FileStorage.Client.Discipline
import FileStorage.Client.Session
import FileStorage.Service.EndToEnd
import FileStorage.Service.Ownership

/-!
# Whole clients and the server

Any number of processes of `client.c`, each working through its command line, with
the sockets and the server: a client calls what its program asks next, and its
program goes on with what the call returns. What a program asks its file system is
answered by anything.

`Course` is where a client is in its program. While its call waits to be served, and
until it returns, the program stands still; but what the client has at hand is
already that behind the answer. `served_call` is one call at the cache: a client that
has at hand what it has open gets an answer that its program reckons with, and again
has at hand what it has open.
-/

namespace FileStorage.Service

open FileStorage.Lib FileStorage.Lib.Dialogue FileStorage.Storage FileStorage.Worker
open FileStorage.System FileStorage.Wire
open FileStorage.Client (Query Program NbRequest Hand Descriptor Orderly calls clientMain
  clientProcess)

/-! ## The programs of the clients -/

/-- The call that asks a question. `main` asks for no negative number of files. -/
def message : Query → Option Call
  | .openFile pathname .create => some (.openFile pathname .create)
  | .openFile pathname .openIt => some (.openFile pathname .open)
  | .readFile pathname => some (.readFile pathname)
  | .readNFiles n _ => some (.readNFiles n.toNat)
  | .appendToFile pathname buf => some (.appendToFile pathname buf)
  | .closeFile pathname => some (.closeFile pathname)
  | .closeConnection sockname => some (.closeConnection sockname)
  | _ => none

/-- What the program gets of what the call returns. -/
def told : (q : Query) → Received → Option q.Answer
  | .openFile _ _, .evicted ret _ => some ret
  | .appendToFile _ _, .evicted ret _ => some ret
  | .readFile _, .content ret _ buf => some (ret, buf.getD [])
  | .readNFiles _ _, .files ret _ => some ret
  | .closeFile _, .value ret => some ret
  | .closeConnection _, .value ret => some ret
  | _, _ => none

/-- The sockets and the server, what the clients still have to do, and what they
have been told, newest first. -/
structure Clients where
  net : Net
  program : Nat → Program Int
  told : List (Nat × Dialogue.Exchange Query Query.Answer)

/-- A client that connects with its command line, one of its steps, or one of the
network. -/
inductive ClientsLabel where
  | connect (fd : Nat) (nbRequest : NbRequest)
  | call (k : Nat)
  | take (fd : Nat) (sched : List Read)
  | work (fd : Nat)
  | receive (k : Nat) (sched : List Read)
  /-- A question that is no call, answered as in `env`. -/
  | inside (k : Nat) (env : (q : Query) → q.Answer)

namespace Clients

def init (ram nfile : Int) (sockname : Bytes) : Clients :=
  ⟨.init ram nfile sockname, fun _ => .done 0, []⟩

/-- The program of `k` has asked `q` and goes on with `p`. -/
def goOn (s : Clients) (net : Net) (k : Nat) (q : Query) (a : q.Answer) (p : Program Int) :
    Clients :=
  ⟨net, Function.update s.program k p, (k, ⟨q, a⟩) :: s.told⟩

end Clients

def clientsStep (s : Clients) : ClientsLabel → Option Clients
  | .connect fd nbRequest =>
    (netStep s.net (.connect fd)).map fun t =>
      { s with net := t
               program := Function.update s.program s.net.nextClient (clientProcess nbRequest) }
  | .call k =>
    match s.program k with
    | .ask q _ =>
      (message q).bind fun c => (netStep s.net (.call k c)).map fun t => { s with net := t }
    | _ => none
  | .take fd sched => (netStep s.net (.take fd sched)).map fun t => { s with net := t }
  | .work fd => (netStep s.net (.work fd)).map fun t => { s with net := t }
  | .receive k sched =>
    (netStep s.net (.receive k sched)).bind fun t =>
      match s.program k, t.log with
      | .ask q next, .returned _ r :: _ => (told q r).map fun a => s.goOn t k q a (next a)
      | _, _ => none
  | .inside k env =>
    match s.program k with
    | .ask q next =>
      if (message q).isNone then some (s.goOn s.net k q (env q) (next (env q))) else none
    | _ => none

/-- What a step can be. -/
theorem clientsStep_cases {s t : Clients} {l : ClientsLabel} (h : clientsStep s l = some t) :
    (∃ fd nbRequest, l = .connect fd nbRequest ∧ s.net.sys.connected fd = false ∧
      t = { s with net := s.net.connected fd
                   program := Function.update s.program s.net.nextClient
                     (clientProcess nbRequest) }) ∨
    (∃ k q next c, l = .call k ∧ s.program k = .ask q next ∧ message q = some c ∧
      (s.net.client k).calling = none ∧ t = { s with net := s.net.called k c }) ∨
    (∃ fd sched op c, l = .take fd sched ∧ (s.net.client (s.net.peer fd)).request ≠ [] ∧
      Wire.serve ⟨sched, (s.net.client (s.net.peer fd)).request⟩ = .ok (some op, c) ∧
      step s.net.sys (.request fd op) = some (s.net.sys.taken fd op) ∧
      t = { s with net := s.net.taken fd op c.stream }) ∨
    (∃ fd j e, l = .work fd ∧ s.net.sys.job fd = some j ∧
      wstep j.rq j.pc s.net.sys.shared = some e ∧ t = { s with net := s.net.worked fd j e }) ∨
    (∃ k sched c r rest q next a, l = .receive k sched ∧ (s.net.client k).calling = some c ∧
      (s.net.client k).ready = true ∧
      callReceive ((s.net.client k).answer.length + 1) ⟨sched, (s.net.client k).answer⟩ c =
        .ok (r, rest) ∧
      s.program k = .ask q next ∧ told q r = some a ∧
      t = s.goOn (s.net.returned k r rest.stream) k q a (next a)) ∨
    (∃ k env q next, l = .inside k env ∧ s.program k = .ask q next ∧ message q = none ∧
      t = s.goOn s.net k q (env q) (next (env q))) := by
  cases l with
  | connect fd nbRequest =>
    obtain ⟨u, hu, rfl⟩ := Option.map_eq_some_iff.mp h
    obtain ⟨fd', hl, hfree, rfl⟩ := (netStep_cases hu).resolve_right (by simp)
    cases hl
    exact .inl ⟨fd, nbRequest, rfl, hfree, rfl⟩
  | call k =>
    simp only [clientsStep] at h
    split at h
    · next q next hq =>
      obtain ⟨c, hc, h⟩ := Option.bind_eq_some_iff.mp h
      obtain ⟨u, hu, rfl⟩ := Option.map_eq_some_iff.mp h
      simp only [netStep] at hu
      split at hu
      · next hfree =>
        cases hu
        exact .inr (.inl ⟨k, q, next, c, rfl, hq, hc, hfree.2, rfl⟩)
      · cases hu
    · cases h
  | take fd sched =>
    obtain ⟨u, hu, rfl⟩ := Option.map_eq_some_iff.mp h
    -- the network makes the step of the same name
    rcases netStep_cases hu with ⟨_, hl, -⟩ | ⟨_, _, hl, -⟩ |
        ⟨fd', sched', op, c, hl, hne, hserve, hstep, rfl⟩ | ⟨_, _, _, hl, -⟩ |
        ⟨_, _, _, _, _, hl, -⟩
    · cases hl
    · cases hl
    · cases hl
      exact .inr (.inr (.inl ⟨fd, sched, op, c, rfl, hne, hserve, hstep, rfl⟩))
    · cases hl
    · cases hl
  | work fd =>
    obtain ⟨u, hu, rfl⟩ := Option.map_eq_some_iff.mp h
    rcases netStep_cases hu with ⟨_, hl, -⟩ | ⟨_, _, hl, -⟩ | ⟨_, _, _, _, hl, -⟩ |
        ⟨fd', j, e, hl, hj, hw, rfl⟩ | ⟨_, _, _, _, _, hl, -⟩
    · cases hl
    · cases hl
    · cases hl
    · cases hl
      exact .inr (.inr (.inr (.inl ⟨fd, j, e, rfl, hj, hw, rfl⟩)))
    · cases hl
  | receive k sched =>
    obtain ⟨u, hu, h⟩ := Option.bind_eq_some_iff.mp h
    rcases netStep_cases hu with ⟨_, hl, -⟩ | ⟨_, _, hl, -⟩ | ⟨_, _, _, _, hl, -⟩ |
        ⟨_, _, _, hl, -⟩ | ⟨k', sched', c, r, rest, hl, hcalling, hready, hr, rfl⟩
    · cases hl
    · cases hl
    · cases hl
    · cases hl
    · cases hl
      split at h
      · next q next k'' r' log hq hlog =>
        cases hlog
        obtain ⟨a, ha, rfl⟩ := Option.map_eq_some_iff.mp h
        exact .inr (.inr (.inr (.inr (.inl
          ⟨k, sched, c, r, rest, q, next, a, rfl, hcalling, hready, hr, hq, ha, rfl⟩))))
      · cases h
  | inside k env =>
    simp only [clientsStep] at h
    split at h
    · next q next hq =>
      split at h
      · next hnone =>
        cases h
        exact .inr (.inr (.inr (.inr (.inr
          ⟨k, env, q, next, rfl, hq, Option.isNone_iff_eq_none.mp hnone, rfl⟩))))
      · cases h
    · cases h

/-! ## Where a client is in its program -/

/-- The order of the calls, on an open connection. -/
abbrev rules : Contract Query Query.Answer (Hand × Descriptor) := along calls Descriptor.next

abbrev Keeping (p : Program Int) (h : Hand × Descriptor) : Prop :=
  Keeps rules (fun _ h => h.1.Free) p h

/-- No refusal to read or to close. -/
def Granted : (q : Query) → q.Answer → Prop
  | .readFile _, r => Prod.fst r = (0 : Int)
  | .closeFile _, r => r = (0 : Int)
  | _, _ => True

/-- The client, its call, and what it has at hand as soon as the call is served. -/
inductive Course (closed : Prop) : Program Int → Option Call → Pending → Hand × Descriptor → Prop
  | thinking {p : Program Int} {h : Hand × Descriptor} (keeps : Keeping p h) :
      Course closed p none .nothing h
  | asked {q : Query} {next : q.Answer → Program Int} {c : Call} {h : Hand × Descriptor}
      (msg : message q = some c) (keeps : Keeping (.ask q next) h) :
      Course closed (.ask q next) (some c) (.asked c) h
  | served {q : Query} {next : q.Answer → Program Int} {c : Call} {h : Hand × Descriptor}
      {r : Received} {a : q.Answer} (msg : message q = some c) (hears : told q r = some a)
      (granted : closed → Granted q a) (allowed : rules.allows h q)
      (keeps : Keeping (next a) (rules.after h q a)) :
      Course closed (.ask q next) (some c) (.due r) (rules.after h q a)

section

variable {lim : Limits} {fd : Nat} {closed : Prop} {l : List Entry} {c : Call} {q : Query}
variable {h : Hand × Descriptor} {p : Bytes}

/-- A call is served with the answer `a`: it is one that can come, and what the client
has at hand then is what it has open. -/
structure ServedAs (closed : Prop) (lim : Limits) (l : List Entry) (fd : Nat) (c : Call) (q : Query)
    (h : Hand × Descriptor) (a : q.Answer) : Prop where
  hears : told q (received c (serve lim fd c.op l).2) = some a
  answers : rules.answers h q a
  granted : closed → Granted q a
  held : closed → ∀ p, (rules.after h q a).1.file = some p → Owns (serve lim fd c.op l).1 fd p
  known : ∀ p, Owns (serve lim fd c.op l).1 fd p → (rules.after h q a).1.file = some p

/-- A file that the client has open now is one it had at hand and did not give up, or one
it has just opened. -/
theorem owned_back (hb : Bounded lim l) (hgrows : Grows lim l fd c.op)
    (hknown : ∀ p, Owns l fd p → h.1.file = some p) (ho : Owns (serve lim fd c.op l).1 fd p) :
    (h.1.file = some p ∧ ¬ GivesUp lim l fd c.op p) ∨
      ∃ flag a, c.op = .openFile p flag ∧ a ≠ .ko ∧ (serve lim fd c.op l).2 = [.answer a] := by
  rcases of_owns_serve hb.names hgrows ho with ⟨ho, hnot⟩ | ⟨-, hopen⟩
  · exact .inl ⟨hknown p ho, fun hgives => hnot ⟨rfl, hgives⟩⟩
  · exact .inr hopen

/-- OPEN is answered as the client expects. -/
theorem served_openFile {pathname : Bytes} {flag : Client.Flag} {flags : OpenFlag}
    (hb : Bounded lim l) (hgrows : Grows lim l fd (.openFile pathname flags.text))
    (hfree : h.1.file = none) (hknown : ∀ p, Owns l fd p → h.1.file = some p) :
    ∃ a, ServedAs closed lim l fd (.openFile pathname flags) (.openFile pathname flag) h a := by
  have hback : ∀ p, Owns (serve lim fd (.openFile pathname flags.text) l).1 fd p →
      p = pathname ∧ ∃ a, a ≠ .ko ∧
        (serve lim fd (.openFile pathname flags.text) l).2 = [.answer a] := by
    intro p ho
    rcases @owned_back lim fd l (.openFile pathname flags) h p hb hgrows hknown ho with
      ⟨hfile, -⟩ | ⟨_, a, hop, hne, houts⟩
    · cases hfree.symm.trans hfile
    · cases hop
      exact ⟨rfl, a, hne, houts⟩
  rcases @serve_openFile lim l fd pathname flags.text with hko | ⟨a, hne, houts, howns⟩
  · refine ⟨(-1 : Int), ?_, .inr rfl, fun _ => trivial, fun _ p hp => ?_, fun p ho => ?_⟩
    · show told _ (received _ (serve lim fd (.openFile pathname flags.text) l).2) = _
      rw [hko]
      rfl
    · cases hp
    · obtain ⟨-, a, hne, houts⟩ := hback p ho
      rw [hko] at houts
      cases houts
      exact absurd rfl hne
  · refine ⟨(0 : Int), ?_, .inl rfl, fun _ => trivial, fun _ p hp => ?_, fun p ho => ?_⟩
    · show told _ (received _ (serve lim fd (.openFile pathname flags.text) l).2) = _
      rw [houts]
      exact congrArg some (if_neg hne)
    · cases hp
      exact howns
    · obtain ⟨rfl, -⟩ := hback p ho
      rfl

/-- So is READ FILE. -/
theorem served_readFile {pathname : Bytes} (hb : Bounded lim l) (hfile : h.1.file = some pathname)
    (hheld : closed → ∀ p, h.1.file = some p → Owns l fd p)
    (hknown : ∀ p, Owns l fd p → h.1.file = some p) :
    ∃ a, ServedAs closed lim l fd (.readFile pathname) (.readFile pathname) h a := by
  obtain ⟨ret, size, buf, hr⟩ : ∃ ret size buf, received (.readFile pathname)
      (serve lim fd (.readFile pathname) l).2 = .content ret size buf := by
    show ∃ ret size buf, received _ [readFile fd pathname l] = _
    cases readFile fd pathname l <;> exact ⟨_, _, _, rfl⟩
  refine ⟨(ret, buf.getD []), ?_, trivial, fun hclosed => ?_, hheld, hknown⟩
  · show told _ (received (.readFile pathname) (serve lim fd (.readFile pathname) l).2) = _
    rw [hr]
    rfl
  · obtain ⟨e, he⟩ := @serve_readFile lim l fd pathname hb.names (hheld hclosed pathname hfile)
    rw [he] at hr
    cases hr
    rfl

/-- So is APPEND. -/
theorem served_appendToFile {pathname buf : Bytes} (hb : Bounded lim l)
    (hgrows : Grows lim l fd (.appendToFile pathname buf)) (hfile : h.1.file = some pathname)
    (hheld : closed → ∀ p, h.1.file = some p → Owns l fd p)
    (hknown : ∀ p, Owns l fd p → h.1.file = some p) :
    ∃ a, ServedAs closed lim l fd (.appendToFile pathname buf) (.appendToFile pathname buf) h
      a := by
  obtain ⟨a, ha⟩ : ∃ a, (serve lim fd (.appendToFile pathname buf) l).2 = [.answer a] := ⟨_, rfl⟩
  refine ⟨answerValue a, ?_, ?_, fun _ => trivial, fun hclosed p hp => ?_, fun p ho => ?_⟩
  · show told _ (received _ (serve lim fd (.appendToFile pathname buf) l).2) = _
    rw [ha]
    rfl
  · exact (answerValue_cases a).symm.imp And.right And.right
  · rcases answerValue_cases a with ⟨rfl, hval⟩ | ⟨hne, hval⟩
    · cases hp
    · rw [hval] at hp
      cases hp
      -- an APPEND that is not refused gives nothing up
      have hsends : SendsClosed l (.appendToFile pathname buf) := fun n hop => nomatch hop
      refine (owns_serve hb.names hsends (hheld hclosed pathname hfile)).resolve_right ?_
      rintro ⟨-, hop | ⟨_, -, hko⟩⟩
      · cases hop
      · change (serve lim fd (.appendToFile pathname buf) l).2 = _ at hko
        rw [ha] at hko
        cases hko
        exact hne rfl
  · rcases @owned_back lim fd l (.appendToFile pathname buf) h p hb hgrows hknown ho with
      ⟨hp, hnot⟩ | ⟨_, _, hop, -, -⟩
    · obtain rfl := Option.some.inj (hfile.symm.trans hp)
      have hne : a ≠ .ko := fun hko => hnot (.inr ⟨buf, rfl, by rw [← hko]; exact ha⟩)
      have hval : answerValue a = 0 := if_neg hne
      show Hand.granted (some pathname) (answerValue a) = _
      rw [hval]
      rfl
    · cases hop

/-- So is CLOSE FILE. -/
theorem served_closeFile {pathname : Bytes} (hb : Bounded lim l)
    (hgrows : Grows lim l fd (.closeFile pathname)) (hfile : h.1.file = some pathname)
    (hheld : closed → ∀ p, h.1.file = some p → Owns l fd p)
    (hknown : ∀ p, Owns l fd p → h.1.file = some p) :
    ∃ a, ServedAs closed lim l fd (.closeFile pathname) (.closeFile pathname) h a := by
  obtain ⟨a, ha⟩ : ∃ a, (serve lim fd (.closeFile pathname) l).2 = [.answer a] := ⟨_, rfl⟩
  refine ⟨answerValue a, ?_, trivial, fun hclosed => ?_, fun _ p hp => ?_, fun p ho => ?_⟩
  · show told _ (received _ (serve lim fd (.closeFile pathname) l).2) = _
    rw [ha]
    rfl
  · have hok := @serve_closeFile lim l fd pathname hb.names (hheld hclosed pathname hfile)
    rw [ha] at hok
    cases hok
    rfl
  · cases hp
  · rcases @owned_back lim fd l (.closeFile pathname) h p hb hgrows hknown ho with
      ⟨hp, hnot⟩ | ⟨_, _, hop, -, -⟩
    · obtain rfl := Option.some.inj (hfile.symm.trans hp)
      exact absurd (.inl rfl) hnot
    · cases hop

/-- A call that is made with no file open, and opens none. -/
theorem served_free (hb : Bounded lim l) (hgrows : Grows lim l fd c.op) (hfree : h.1.file = none)
    (hknown : ∀ p, Owns l fd p → h.1.file = some p) (hop : ∀ p flag, c.op ≠ .openFile p flag)
    {a : q.Answer} (hears : told q (received c (serve lim fd c.op l).2) = some a)
    (hanswers : rules.answers h q a) (hgranted : Granted q a)
    (hafter : (rules.after h q a).1.file = none) : ServedAs closed lim l fd c q h a := by
  refine ⟨hears, hanswers, fun _ => hgranted, fun _ p hp => ?_, fun p ho => ?_⟩
  · cases hafter.symm.trans hp
  · rcases owned_back hb hgrows hknown ho with ⟨hfile, -⟩ | ⟨_, _, hopen, -, -⟩
    · cases hfree.symm.trans hfile
    · exact absurd hopen (hop p _)

/-- **Every call of a client is served in order.** -/
theorem served_call (hb : Bounded lim l) (hgrows : Grows lim l fd c.op) (hmsg : message q = some c)
    (hallowed : rules.allows h q) (hheld : closed → ∀ p, h.1.file = some p → Owns l fd p)
    (hknown : ∀ p, Owns l fd p → h.1.file = some p) :
    ∃ a, ServedAs closed lim l fd c q h a := by
  obtain ⟨hallowed, -⟩ := hallowed
  cases q with
  | openFile pathname flag =>
    obtain ⟨flags, rfl⟩ : ∃ flags, c = .openFile pathname flags := by
      cases flag <;> cases hmsg <;> exact ⟨_, rfl⟩
    exact served_openFile hb hgrows hallowed.1 hknown
  | readFile pathname =>
    cases hmsg
    exact served_readFile hb hallowed hheld hknown
  | readNFiles n dirname =>
    cases hmsg
    exact ⟨_, served_free hb hgrows hallowed hknown nofun rfl trivial trivial hallowed⟩
  | appendToFile pathname buf =>
    cases hmsg
    exact served_appendToFile hb hgrows hallowed.1 hheld hknown
  | closeFile pathname =>
    cases hmsg
    exact served_closeFile hb hgrows hallowed hheld hknown
  | closeConnection sockname =>
    cases hmsg
    exact ⟨_, served_free hb hgrows hallowed hknown nofun rfl trivial trivial hallowed⟩
  | isDir | findAbsolutePath | content | save | listing => cases hmsg

/-! ## Where it is, inverted -/

section

variable {program : Program Int} {calling : Option Call} {pending : Pending} {r : Received}

/-- Without a call the program keeps its rules. -/
theorem Course.of_idle (hc : Course closed program none pending h) :
    pending = .nothing ∧ Keeping program h := by
  cases hc with
  | thinking keeps => exact ⟨rfl, keeps⟩

/-- A program that has ended has no file open. -/
theorem Course.of_done {v : Int} (hc : Course closed (.done v) calling pending h) :
    calling = none ∧ pending = .nothing ∧ h.1.file = none := by
  cases hc with
  | thinking keeps => exact ⟨rfl, rfl, keeps⟩

/-- A call is under way for the query that the program asks. -/
theorem Course.of_calling (hc : Course closed program (some c) pending h) :
    ∃ (q : Query) (next : q.Answer → Program Int), program = .ask q next ∧ message q = some c := by
  cases hc with
  | asked msg | served msg => exact ⟨_, _, rfl, msg⟩

theorem Course.of_asked (hc : Course closed program calling (.asked c) h) :
    ∃ (q : Query) (next : q.Answer → Program Int), program = .ask q next ∧ calling = some c ∧
      message q = some c ∧ Keeping (.ask q next) h := by
  cases hc with
  | asked msg keeps => exact ⟨_, _, rfl, rfl, msg, keeps⟩

/-- An answer on the way is one that the program can go on with. -/
theorem Course.of_due (hc : Course closed program calling (.due r) h) :
    ∃ (q : Query) (next : q.Answer → Program Int) (c : Call) (h₀ : Hand × Descriptor)
      (a : q.Answer), program = .ask q next ∧ calling = some c ∧ message q = some c ∧
      told q r = some a ∧ (closed → Granted q a) ∧ rules.allows h₀ q ∧
      h = rules.after h₀ q a ∧ Keeping (next a) h := by
  cases hc with
  | served msg hears granted allowed keeps =>
    exact ⟨_, _, _, _, _, rfl, rfl, msg, hears, granted, allowed, rfl, keeps⟩

theorem Course.of_inside {next : q.Answer → Program Int}
    (hc : Course closed (.ask q next) calling pending h) (hmsg : message q = none) :
    calling = none ∧ pending = .nothing ∧ Keeping (.ask q next) h := by
  cases hc with
  | thinking keeps => exact ⟨rfl, rfl, keeps⟩
  | asked msg | served msg =>
    rw [hmsg] at msg
    cases msg

/-- A call needs an open connection. -/
theorem opened_of_allows (hallowed : rules.allows h q) (hmsg : message q = some c) :
    h.2 = .opened := by
  obtain ⟨hand, descriptor⟩ := h
  cases descriptor with
  | opened => rfl
  | closed =>
    have hsome : (Descriptor.next .closed q).isSome = true := hallowed.2
    cases q with
    | isDir | findAbsolutePath | content | save | listing => cases hmsg
    | _ => cases hsome

/-- Only `closeConnection` closes it, and then no file is open. -/
theorem closed_after {a : q.Answer} (hallowed : rules.allows h q) (hopen : h.2 = .opened)
    (hclosed : (rules.after h q a).2 = .closed) : (rules.after h q a).1.file = none := by
  obtain ⟨hand, descriptor⟩ := h
  cases hopen
  cases q with
  | closeConnection sockname => exact hallowed.1
  | _ => cases hclosed

end

end

end FileStorage.Service
