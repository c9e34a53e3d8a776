import FileStorage.System.Atomic

/-!
# What a client sees

Whatever the other clients do, what one client sees is a dialogue: it connects,
sends one request, gets what that request may cause and one answer for it, and
so on until CLOSE CONNECTION. `clientStep` is this dialogue as a machine that
reads the events of one client. It accepts

* an effect (`opened`, `closed`, `appended`, `deleted`) only from a request of
  the right kind, and at most one for each request;
* evictions only from OPEN and APPEND before they have taken effect;
* one frame for READ FILE, which is then over, and at most `n` frames for
  READ N with `n ≠ 0`;
* an answer only when the handler can give it, and a positive one exactly when
  the request has taken effect (for READ N: when a frame was sent).

`history_follows_protocol`: in every interleaving the history of every client is
such a dialogue, and it has come to the phase that the client is in.
-/

namespace FileStorage.System

open FileStorage.Lib FileStorage.Storage FileStorage.Worker

/-- Whether a request has taken effect. -/
inductive Progress where
  | pending
  | done
  | failed
  deriving DecidableEq

/-- The phase of a client, with the frames its request has been sent. -/
inductive Phase where
  | away
  | idle
  | busy (rq : Request) (p : Progress) (frames : Nat)
  deriving DecidableEq

/-- The request that an event is part of. -/
def serves : Event → Option Request
  | .accepted _ => none
  | .requested _ => none
  | .opened rq _ => some rq
  | .closed rq _ => some rq
  | .evicted rq _ => some rq
  | .deleted rq _ => some rq
  | .appended rq _ _ => some rq
  | .frame rq _ _ _ _ => some rq
  | .answered rq _ => some rq
  | .disconnected rq _ => some rq

/-- The client that an event belongs to. -/
def client : Event → Option Nat
  | .accepted fd => some fd
  | .requested rq => some rq.fd
  | ev => (serves ev).map (·.fd)

/-- The answer is one of the handler, and is positive exactly when the request
has taken effect. -/
def earned (op : Op) (p : Progress) (frames : Nat) (a : Answer) : Bool :=
  permitted op a &&
    match op with
    | .readFile _ => true
    | .readNFiles _ => (a == .ok) == decide (0 < frames)
    | _ => (a != .ko) == (p == .done)

/-- A request takes effect, unless it already has. -/
def effect (rq : Request) (p p' : Progress) (frames : Nat) : Option Phase :=
  if p = .pending then some (.busy rq p' frames) else none

/-- What may happen to a request under way. -/
def served (rq : Request) (p : Progress) (frames : Nat) (ev : Event) : Option Phase :=
  match rq.op, ev with
  | .openFile _ _, .opened _ _ => effect rq p .done frames
  | .openFile _ _, .evicted _ _ => effect rq p .pending frames
  | .closeFile _, .closed _ _ => effect rq p .done frames
  | .appendToFile _ c, .appended _ _ content => if content = c then effect rq p .done frames else none
  | .appendToFile _ _, .deleted _ _ => effect rq p .failed frames
  | .appendToFile _ _, .evicted _ _ => effect rq p .pending frames
  | .readFile _, .frame _ _ _ _ _ => some .idle
  | .readNFiles n, .frame _ _ _ _ _ =>
    if n = 0 ∨ (frames : Int) < n then some (.busy rq p (frames + 1)) else none
  | .closeConnection _, .disconnected _ _ => some .away
  | _, .answered _ a => if earned rq.op p frames a then some .idle else none
  | _, _ => none

/-- The dialogue. -/
def clientStep : Phase → Event → Option Phase
  | .away, .accepted _ => some .idle
  | .idle, .requested rq => some (.busy rq .pending 0)
  | .busy rq p frames, ev => if serves ev = some rq then served rq p frames ev else none
  | _, _ => none

/-- The dialogue of the client `fd`, read off the history of all. -/
def protocolStep (fd : Nat) (ph : Phase) (ev : Event) : Option Phase :=
  if client ev = some fd then clientStep ph ev else some ph

/-- The client is in this phase. -/
def InPhase (s : Sys) (fd : Nat) : Phase → Prop
  | .away => s.connected fd = false
  | .idle => s.connected fd = true ∧ s.job fd = none
  | .busy rq _ _ => ∃ pc, s.job fd = some ⟨rq, pc⟩

/-- Where a worker is says how far its request has come. -/
def Tally (rq : Request) (p : Progress) (frames : Nat) : Pc → Prop
  | .reply a => earned rq.op p frames a = true
  | .appStats a => earned rq.op p frames a = true
  | .readNHead k => p = .pending ∧ frames = 0 ∧ ∀ n, rq.op = .readNFiles n → n ≠ 0 → k = n
  | .readNLoop check k _ => p = .pending ∧ (frames : Int) = check - k ∧
      ∀ n, rq.op = .readNFiles n → n ≠ 0 → check = n
  | _ => p = .pending ∧ frames = 0

/-- The phase that a step of the worker leads to. -/
inductive Continues (rq : Request) : Effect → Phase → Prop
  | on {q : Pc} {sh : Shared} {ev : Option Event} {p : Progress} {frames : Nat}
      (tally : Tally rq p frames q) (stays : ∀ rq' a, ev ≠ some (.disconnected rq' a)) :
      Continues rq ⟨some q, sh, ev⟩ (.busy rq p frames)
  | served {sh : Shared} {ev : Option Event} (stays : ∀ rq' a, ev ≠ some (.disconnected rq' a)) :
      Continues rq ⟨none, sh, ev⟩ .idle
  | left {sh : Shared} {a : Answer} : Continues rq ⟨none, sh, some (.disconnected rq a)⟩ .away

section

variable {rq : Request} {sh : Shared} {e : Effect} {pc q : Pc} {p : Progress} {frames : Nat}

theorem tally_entry (id fd : Nat) (op : Op) : Tally ⟨id, fd, op⟩ .pending 0 (entry op) := by
  cases op <;> exact ⟨rfl, rfl⟩

/-- A handler that has done nothing answers `-1`. -/
theorem earned_ko {op : Op} (hp : permitted op .ko = true) : earned op .pending 0 .ko = true := by
  cases op <;> first | rfl | cases hp

/-- A silent step. -/
theorem tally_goes {st : InfoStorage} (hg : Goes rq st pc q) (hh : Handles rq pc)
    (hh' : Handles rq q) (ht : Tally rq p frames pc) (hn : ∀ n, pc ≠ .readNStart n) :
    Tally rq p frames q := by
  -- nothing is done or sent yet, so `-1` is an answer
  have ko : p = .pending ∧ frames = 0 → permitted rq.op .ko = true →
      earned rq.op p frames .ko = true := by
    intro hpf hperm
    rw [hpf.1, hpf.2]
    exact earned_ko hperm
  cases hg with
  | openKo => exact ko ht hh'
  | openGiveUp => exact ko ht hh'
  | readKo => exact ko ht hh'
  | readDeny => exact ko ht hh'
  | closeKo => exact ko ht hh'
  | closeGiveUp => exact ko ht hh'
  | appKo => obtain ⟨-, -, -, hperm⟩ := hh'; exact ko ht hperm
  | appDeny => obtain ⟨-, -, -, hperm⟩ := hh'; exact ko ht hperm
  | nStart => exact absurd rfl (hn _)
  | nHead =>
    obtain ⟨hp, hf, hbound⟩ := ht
    exact ⟨hp, by omega, hbound⟩
  | nSkip => exact ht
  | @nEnd check k cur =>
    obtain ⟨n, hop⟩ := hh
    obtain ⟨hp, hf, -⟩ := ht
    -- the count of frames tells whether something was sent
    have hsent : decide (0 < frames) = decide (k ≠ check) := by
      rw [decide_eq_decide]
      omega
    show earned rq.op p frames _ = true
    rw [hop]
    unfold earned
    rw [hsent]
    by_cases hk : k = check <;> simp [hk, permitted]
  | _ => exact ht

/-- An event of the request under way. -/
theorem clientStep_busy {ev : Event} {ph : Phase} (hev : serves ev = some rq)
    (hs : served rq p frames ev = some ph) : clientStep (.busy rq p frames) ev = some ph := by
  show (if serves ev = some rq then _ else _) = _
  rw [if_pos hev]
  exact hs

theorem insert_continues {x : Node} {rm : Bytes} {pi : InsPc} (hh : Handles rq (.insert x rm pi))
    (ht : Tally rq p frames (.insert x rm pi)) (hw : insertStep rq x rm pi sh = some e) :
    ∃ ph, observe clientStep (.busy rq p frames) e.event = some ph ∧ Continues rq e ph := by
  obtain ⟨name, fl, hop, -⟩ := hh
  obtain ⟨rfl, rfl⟩ := ht
  -- behind the insertion there is one answer, and nothing was sent
  have answer : ∀ {p : Progress} {a : Answer},
      earned (.openFile name fl) p 0 a = true → Tally rq p 0 (.reply a) := by
    intro p a ha
    show earned rq.op p 0 a = true
    rw [hop]
    exact ha
  cases insertStep_cases hw with
  | go => exact ⟨_, rfl, .on ⟨rfl, rfl⟩ (by simp)⟩
  | @evict _ m =>
    have hs : served rq .pending 0 (.evicted rq m) = some (.busy rq .pending 0) := by
      unfold served
      rw [hop]
      rfl
    exact ⟨_, clientStep_busy rfl hs, .on ⟨rfl, rfl⟩ (by simp)⟩
  | fail => exact ⟨_, rfl, .on (answer rfl) (by simp)⟩
  | commit =>
    have hs : served rq .pending 0 (.opened rq sh.storage.brk) = some (.busy rq .done 0) := by
      unfold served
      rw [hop]
      rfl
    exact ⟨_, clientStep_busy rfl hs, .on (answer rfl) (by simp)⟩

theorem update_continues {n : NodeId} {c rm : Bytes} {cf : Option Ptr} {pu : UpdPc}
    (hh : Handles rq (.update n c rm cf pu)) (ht : Tally rq p frames (.update n c rm cf pu))
    (hw : updateStep rq n c rm cf pu sh = some e) :
    ∃ ph, observe clientStep (.busy rq p frames) e.event = some ph ∧ Continues rq e ph := by
  obtain ⟨name, hop⟩ := hh
  obtain ⟨rfl, rfl⟩ := ht
  have answer : ∀ {p : Progress} {a : Answer},
      earned (.appendToFile name c) p 0 a = true → Tally rq p 0 (.appStats a) := by
    intro p a ha
    show earned rq.op p 0 a = true
    rw [hop]
    exact ha
  cases updateStep_cases hw with
  | go => exact ⟨_, rfl, .on ⟨rfl, rfl⟩ (by simp)⟩
  | delete =>
    have hs : served rq .pending 0 (.deleted rq n) = some (.busy rq .failed 0) := by
      unfold served
      rw [hop]
      rfl
    exact ⟨_, clientStep_busy rfl hs, .on (answer rfl) (by simp)⟩
  | @evict _ m =>
    have hs : served rq .pending 0 (.evicted rq m) = some (.busy rq .pending 0) := by
      unfold served
      rw [hop]
      rfl
    exact ⟨_, clientStep_busy rfl hs, .on ⟨rfl, rfl⟩ (by simp)⟩
  | fail => exact ⟨_, rfl, .on (answer rfl) (by simp)⟩
  | deny => exact ⟨_, rfl, .on (answer rfl) (by simp)⟩
  | commit =>
    have hs : served rq .pending 0 (.appended rq n c) = some (.busy rq .done 0) := by
      unfold served
      rw [hop]
      show (if c = c then _ else _) = _
      rw [if_pos rfl]
      rfl
    exact ⟨_, clientStep_busy rfl hs, .on (answer rfl) (by simp)⟩

/-- **A step of the worker is a step of the dialogue.** -/
theorem worker_continues (hh : Handles rq pc) (ht : Tally rq p frames pc)
    (hw : wstep rq pc sh = some e) :
    ∃ ph, observe clientStep (.busy rq p frames) e.event = some ph ∧ Continues rq e ph := by
  have hh' : ∀ {q : Pc}, e.pc = some q → Handles rq q := handles_step hh hw
  -- the start of READ N fixes how many frames there may be
  by_cases hn : ∃ n, pc = .readNStart n
  · obtain ⟨n, rfl⟩ := hn
    obtain ⟨rfl, rfl⟩ := ht
    obtain rfl := Option.some.inj hw
    refine ⟨_, rfl, .on ⟨rfl, rfl, fun m hop hm => ?_⟩ (by simp)⟩
    have hop' : rq.op = .readNFiles n := hh
    rw [hop'] at hop
    obtain rfl := Op.readNFiles.inj hop
    exact if_neg hm
  · cases wstep_cases hw with
    | go hg =>
      have ht' := tally_goes hg hh (hh' rfl) ht fun n he => hn ⟨n, he⟩
      exact ⟨_, rfl, .on ht' (by simp)⟩
    | insert he => exact insert_continues hh ht he
    | update he => exact update_continues hh ht he
    | openTake =>
      obtain ⟨name, fl, hop, -⟩ := hh
      obtain ⟨rfl, rfl⟩ := ht
      refine ⟨.busy rq .done 0, clientStep_busy rfl ?_, .on ?_ (by simp)⟩
      · unfold served
        rw [hop]
        rfl
      · show earned rq.op _ _ _ = true
        rw [hop]
        rfl
    | closeTake =>
      obtain ⟨name, hop⟩ := hh
      obtain ⟨rfl, rfl⟩ := ht
      refine ⟨.busy rq .done 0, clientStep_busy rfl ?_, .on ?_ (by simp)⟩
      · unfold served
        rw [hop]
        rfl
      · show earned rq.op _ _ _ = true
        rw [hop]
        rfl
    | readSend =>
      obtain ⟨name, hop⟩ := hh
      refine ⟨.idle, clientStep_busy rfl ?_, .served (by simp)⟩
      unfold served
      rw [hop]
    | @nSend check k n node st hk hst hm =>
      obtain ⟨m, hop⟩ := hh
      obtain ⟨hp, hf, hbound⟩ := ht
      -- one more frame is within the number that was asked for
      have hroom : m = 0 ∨ (frames : Int) < m := by
        by_cases hm0 : m = 0
        · exact .inl hm0
        · have := hbound m hop hm0
          exact .inr (by omega)
      refine ⟨.busy rq p (frames + 1), clientStep_busy rfl ?_,
        .on ⟨hp, by push_cast; omega, hbound⟩ (by simp)⟩
      unfold served
      rw [hop]
      exact if_pos hroom
    | stats => exact ⟨_, rfl, .on ht (by simp)⟩
    | closeConn =>
      have hop : rq.op = _ := hh
      refine ⟨.away, clientStep_busy rfl ?_, .left⟩
      unfold served
      rw [hop]
    | @reply a =>
      have ha : earned rq.op p frames a = true := ht
      refine ⟨.idle, clientStep_busy rfl ?_, .served (by simp)⟩
      unfold served
      cases hop : rq.op <;> (rw [hop] at ha; exact if_pos ha)

end

/-! ## Every client in every interleaving -/

/-- The phase of a client, with the tally of its worker. -/
def Agrees (s : Sys) (fd : Nat) : Phase → Prop
  | .away => s.connected fd = false
  | .idle => s.connected fd = true ∧ s.job fd = none
  | .busy rq p frames => ∃ pc, s.job fd = some ⟨rq, pc⟩ ∧ Tally rq p frames pc

theorem Agrees.inPhase {s : Sys} {fd : Nat} {ph : Phase} (h : Agrees s fd ph) :
    InPhase s fd ph := by
  cases ph with
  | away => exact h
  | idle => exact h
  | busy rq p frames =>
    obtain ⟨pc, hj, -⟩ := h
    exact ⟨pc, hj⟩

/-- A step of another client. -/
theorem Agrees.other {s t : Sys} {fd : Nat} {ph : Phase} (h : Agrees s fd ph)
    (hconn : t.connected fd = s.connected fd) (hjob : t.job fd = s.job fd) : Agrees t fd ph := by
  cases ph with
  | away => exact hconn.trans h
  | idle => exact ⟨hconn.trans h.1, hjob.trans h.2⟩
  | busy rq p frames =>
    obtain ⟨pc, hj, ht⟩ := h
    exact ⟨pc, hjob.trans hj, ht⟩

/-- The events of a step are of the request it serves. -/
theorem serves_trans {rq : Request} {A : Bytes → Prop} {pc : Pc} {pc' : Option Pc}
    {st st' : Store} {ev : Option Event} {ev' : Event} (h : Trans rq A pc st pc' st' ev)
    (hev : ev = some ev') : serves ev' = some rq := by
  cases h <;> cases hev <;> rfl

/-- An event of a request belongs to the client that sent it. -/
theorem client_of_serves {ev : Event} {rq : Request} (h : serves ev = some rq) :
    client ev = some rq.fd := by
  cases ev <;> cases h <;> rfl

theorem observe_other {fd a : Nat} {ph : Phase} {ev : Option Event} (hne : a ≠ fd)
    (hev : ∀ ev', ev = some ev' → client ev' = some a) :
    observe (protocolStep fd) ph ev = some ph := by
  cases ev with
  | none => rfl
  | some ev' =>
    show (if client ev' = some fd then _ else _) = _
    rw [hev ev' rfl, if_neg (by simpa using hne)]

theorem observe_own {fd : Nat} {ph : Phase} {ev : Option Event}
    (hev : ∀ ev', ev = some ev' → client ev' = some fd) :
    observe (protocolStep fd) ph ev = observe clientStep ph ev := by
  cases ev with
  | none => rfl
  | some ev' =>
    show (if client ev' = some fd then _ else _) = _
    rw [hev ev' rfl, if_pos rfl]
    rfl

theorem connectedAfter_of_stays {c : Nat → Bool} {a fd : Nat} {ev : Option Event}
    (h : ∀ rq v, ev ≠ some (.disconnected rq v)) : connectedAfter c a ev fd = c fd := by
  unfold connectedAfter
  split
  · exact absurd rfl (h _ _)
  · rfl

section

variable {s : Sys} {fd a : Nat} {ph : Phase}

theorem protocol_accepted (hb : Base s) (ha : Agrees s fd ph) (hc : s.connected a = false) :
    ∃ ph', observe (protocolStep fd) ph (some (.accepted a)) = some ph' ∧
      Agrees (s.accepted a) fd ph' := by
  by_cases hne : a = fd
  · subst hne
    have hjob : s.job a = none := by
      rw [Option.eq_none_iff_forall_ne_some]
      intro j hj
      rw [hb.conn a j hj] at hc
      cases hc
    rw [observe_own (by intro ev hev; cases hev; rfl)]
    cases ph with
    | away => exact ⟨.idle, rfl, Function.update_self .., hjob⟩
    | idle =>
      rw [ha.1] at hc
      cases hc
    | busy =>
      obtain ⟨pc, hj, -⟩ := ha
      rw [hjob] at hj
      cases hj
  · refine ⟨ph, observe_other hne (by intro ev hev; cases hev; rfl), ha.other ?_ rfl⟩
    exact Function.update_of_ne (Ne.symm hne) _ _

theorem protocol_taken {op : Op} (ha : Agrees s fd ph) (hj : s.job a = none)
    (hc : s.connected a = true) :
    ∃ ph', observe (protocolStep fd) ph (some (.requested ⟨s.nextId, a, op⟩)) = some ph' ∧
      Agrees (s.taken a op) fd ph' := by
  by_cases hne : a = fd
  · subst hne
    rw [observe_own (by intro ev hev; cases hev; rfl)]
    cases ph with
    | away =>
      have hn : s.connected a = false := ha
      rw [hc] at hn
      cases hn
    | idle => exact ⟨_, rfl, _, Function.update_self .., tally_entry _ _ op⟩
    | busy =>
      obtain ⟨pc, hj', -⟩ := ha
      rw [hj] at hj'
      cases hj'
  · refine ⟨ph, observe_other hne (by intro ev hev; cases hev; rfl), ha.other rfl ?_⟩
    exact Function.update_of_ne (Ne.symm hne) _ _

theorem protocol_after {j : Job} {e : Effect} (hb : Base s) (hh : Handles j.rq j.pc)
    (ha : Agrees s fd ph) (hj : s.job a = some j) (hw : wstep j.rq j.pc s.shared = some e) :
    ∃ ph', observe (protocolStep fd) ph e.event = some ph' ∧ Agrees (s.after a j e) fd ph' := by
  have hclient : ∀ ev, e.event = some ev → client ev = some a := by
    intro ev hev
    rw [client_of_serves (serves_trans (wstep_trans hw) hev), hb.fd a j hj]
  by_cases hne : a = fd
  · subst hne
    rw [observe_own hclient]
    cases ph with
    | away =>
      have hn : s.connected a = false := ha
      rw [hb.conn a j hj] at hn
      cases hn
    | idle =>
      rw [ha.2] at hj
      cases hj
    | busy rq p frames =>
      obtain ⟨pc, hj', ht⟩ := ha
      rw [hj] at hj'
      obtain rfl := Option.some.inj hj'
      obtain ⟨ph', hobs, hcont⟩ := worker_continues hh ht hw
      refine ⟨ph', hobs, ?_⟩
      cases hcont with
      | on htally stays => exact ⟨_, Function.update_self .., htally⟩
      | served stays =>
        refine ⟨?_, Function.update_self ..⟩
        show connectedAfter s.connected a _ a = true
        rw [connectedAfter_of_stays stays]
        exact hb.conn a _ hj
      | left => exact if_pos rfl
  · refine ⟨ph, observe_other hne hclient, ha.other ?_ ?_⟩
    · show connectedAfter s.connected a e.event fd = _
      unfold connectedAfter
      split
      · exact if_neg (Ne.symm hne)
      · rfl
    · exact Function.update_of_ne (Ne.symm hne) _ _

end

theorem protocol_step {s t : Sys} {l : Label} {fd : Nat} {ph : Phase} (hi : AtomInv s)
    (ha : Agrees s fd ph) (hs : step s l = some t) :
    ∃ ev ph', t.log = ev.toList ++ s.log ∧ observe (protocolStep fd) ph ev = some ph' ∧
      Agrees t fd ph' := by
  rcases step_cases hs with ⟨a, rfl, hc, rfl⟩ | ⟨a, op, rfl, hj, hc, rfl⟩ |
      ⟨a, j, e, rfl, hj, hw, rfl⟩
  · obtain ⟨ph', hobs, ha'⟩ := protocol_accepted hi.base ha hc
    exact ⟨some (.accepted a), ph', rfl, hobs, ha'⟩
  · obtain ⟨ph', hobs, ha'⟩ := protocol_taken ha hj hc
    exact ⟨some (.requested ⟨s.nextId, a, op⟩), ph', rfl, hobs, ha'⟩
  · obtain ⟨ph', hobs, ha'⟩ := protocol_after hi.base (hi.handles a j hj) ha hj hw
    exact ⟨e.event, ph', rfl, hobs, ha'⟩

/-- **The history of every client is a dialogue**, in every interleaving, and it
has come to the phase the client is in. -/
theorem history_follows_protocol {ram nfile : Int} {sockname : Bytes} {s : Sys}
    (h : Reach step anyStep (init ram nfile sockname) s) (fd : Nat) :
    ∃ ph, replay (protocolStep fd) .away s.log = some ph ∧ InPhase s fd ph := by
  have hrep : ∃ ph, replay (protocolStep fd) .away s.log = some ph ∧ Agrees s fd ph :=
    h.replays Sys.log (fun s ph => Agrees s fd ph)
      ⟨rfl, (rfl : (init ram nfile sockname).connected fd = false)⟩
      fun s l t ph hr _ hs ha => protocol_step (atomInv_reach hr) ha hs
  obtain ⟨ph, hph, ha⟩ := hrep
  exact ⟨ph, hph, ha.inPhase⟩

/-- Client 5 is in the middle of READ N while client 4 appends: it has been sent
one frame. -/
theorem history_follows_protocol_two :
    ∃ s, Reach step anyStep (init 10 2 []) s ∧ s.pc 5 = some (.readNLoop 2 1 none) ∧
      ∃ ph, replay (protocolStep 5) .away s.log = some ph ∧ InPhase s 5 ph := by
  obtain ⟨s, hr, hp⟩ := Reach.of_run_test step (init 10 2 [])
    (List.flatten [[.accept 4, .accept 5, .request 4 (.openFile [47, 97] [49])], works 4 4,
      [.request 4 (.appendToFile [47, 97] [120])], works 4 9,
      [.request 5 (.readNFiles 2), .request 4 (.appendToFile [47, 97] [121])], works 5 2,
      works 4 4, works 5 1])
    (fun s => s.pc 5 == some (.readNLoop 2 1 none)) (by decide +kernel)
  exact ⟨s, hr, beq_iff_eq.mp hp, history_follows_protocol hr 5⟩

end FileStorage.System
