import FileStorage.Service.Returns

/-!
# Every call returns what the cache serves it

Any number of clients call the API at any time, and the server handles one clean
request after another. The history of the calls is then one of `atomicStep`:
each call takes effect at one point between its start and its return, and
returns what the cache serves it there. Nothing gets stuck on the way: a request
that waits in a socket can be taken, a request that was taken is finished, and
the answer brings the call to its end (`Answers`).

`Talk` is where a client is in its call, seen from its socket. While a worker
handles the request, the bytes in the socket are those sent so far, and the rest
of the reply is still due.
-/

namespace FileStorage.Service

open FileStorage.Lib FileStorage.Storage FileStorage.Worker FileStorage.System FileStorage.Wire

/-- A worker handles a request of the client. -/
def Net.busy (s : Net) (k : Nat) : Prop := ∃ fd j, s.sys.job fd = some j ∧ s.peer fd = k

/-- Calls that C can make and commas do not break, one clean request at a time,
and reads that deliver something often enough. -/
def orderly (L : Nat) (s : Net) : NetLabel → Prop
  | .call _ c => c.Valid ∧ c.Survives ∧ ∀ p, c.name = some p → p.length ≤ L
  | .take fd sched => idle s.sys ∧ (s.client (s.peer fd)).request.length ≤ dataReads sched ∧
      ∀ c, (s.client (s.peer fd)).calling = some c → Clean s.sys.shared.storage fd c.op
  | .receive k sched => (s.client k).answer.length ≤ dataReads sched
  | _ => True

/-- Where a client is in its call. -/
inductive Talk (lim : Limits) (L : Nat) (busy : Prop) (due : List Output) :
    Client → Pending → Prop
  | resting (rests : ¬ busy) : Talk lim L busy due ⟨none, [], [], false⟩ .nothing
  | asked {c : Call} (rests : ¬ busy) (valid : c.Valid) (survives : c.Survives)
      (short : ∀ p, c.name = some p → p.length ≤ L) :
      Talk lim L busy due ⟨some c, c.bytes, [], false⟩ (.asked c)
  | served {c : Call} {sent : List Output} {r : Reply} (works : busy)
      (replies : Replies c (sent ++ due) r) (kept : Kept lim L r) :
      Talk lim L busy due ⟨some c, [], sent.flatMap Output.bytes, false⟩
        (.due (received c (sent ++ due)))
  | ready {c : Call} {outs : List Output} {r : Reply} (rests : ¬ busy)
      (replies : Replies c outs r) (kept : Kept lim L r) :
      Talk lim L busy due ⟨some c, [], outs.flatMap Output.bytes, true⟩ (.due (received c outs))

section

variable {lim : Limits} {L : Nat} {busy busy' : Prop} {due due' : List Output} {cl : Client}
variable {p : Pending} {c : Call}

/-- A client without a call has nothing under way. -/
theorem Talk.of_resting (h : Talk lim L busy due cl p) (hc : cl.calling = none) :
    ¬ busy ∧ cl = ⟨none, [], [], false⟩ ∧ p = .nothing := by
  cases h with
  | resting rests => exact ⟨rests, rfl, rfl⟩
  | asked | served | ready => cases hc

/-- While the request is unread, nothing is answered. -/
theorem Talk.of_request (h : Talk lim L busy due cl p) (hr : cl.request ≠ []) :
    ∃ c : Call, cl = ⟨some c, c.bytes, [], false⟩ ∧ p = .asked c ∧ c.Valid ∧ c.Survives ∧
      ∀ p, c.name = some p → p.length ≤ L := by
  cases h with
  | asked _ valid survives short => exact ⟨_, rfl, rfl, valid, survives, short⟩
  | resting | served | ready => exact absurd rfl hr

theorem Talk.of_asked (h : Talk lim L busy due cl (.asked c)) :
    cl = ⟨some c, c.bytes, [], false⟩ ∧ c.Valid ∧ c.Survives := by
  cases h with
  | asked _ valid survives => exact ⟨rfl, valid, survives⟩

/-- While a worker serves it, what has been sent begins the reply. -/
theorem Talk.of_busy (h : Talk lim L busy due cl p) (hb : busy) :
    ∃ c sent r, cl = ⟨some c, [], sent.flatMap Output.bytes, false⟩ ∧
      p = .due (received c (sent ++ due)) ∧ Replies c (sent ++ due) r ∧ Kept lim L r := by
  cases h with
  | served _ replies kept => exact ⟨_, _, _, rfl, rfl, replies, kept⟩
  | resting rests | asked rests | ready rests => exact absurd hb rests

/-- Behind the worker the whole reply is there. -/
theorem Talk.of_ready (h : Talk lim L busy due cl p) (hr : cl.ready = true) :
    ∃ c outs r, cl = ⟨some c, [], outs.flatMap Output.bytes, true⟩ ∧
      p = .due (received c outs) ∧ ¬ busy ∧ Replies c outs r ∧ Kept lim L r := by
  cases h with
  | ready rests replies kept => exact ⟨_, _, _, rfl, rfl, rests, replies, kept⟩
  | resting | asked | served => cases hr

/-- What is due to another client does not matter. -/
theorem Talk.elsewhere (h : Talk lim L busy due cl p) (hb : ¬ busy) (hb' : ¬ busy') :
    Talk lim L busy' due' cl p := by
  cases h with
  | resting => exact .resting hb'
  | asked _ valid survives short => exact .asked hb' valid survives short
  | served works => exact absurd works hb
  | ready _ replies kept => exact .ready hb' replies kept

end

/-- The sockets, the server and the cache agree; `due` is what the worker at
work has still to send. -/
structure InStep {lim : Limits} (L : Nat) (s : Net) (m : Atomic lim) (due : List Output) :
    Prop where
  base : Base s.sys
  follows : ∃ rq, Follows s.sys (⟨m.cache, rq, due⟩ : State lim)
  peers : ∀ fd, s.sys.connected fd = true → s.peer fd < s.nextClient ∧ m.fd (s.peer fd) = fd
  talks : ∀ k, Talk lim L (s.busy k) due (s.client k) (m.pending k)
  carried : ∀ e ∈ m.cache.entries, Carried L e.pathname

section

variable {lim : Limits} {L : Nat} {s t : Net} {m : Atomic lim} {due : List Output} {fd k : Nat}
variable {c : Call} {sched : List Read}

/-- Between two requests the memory represents the files of the cache. -/
theorem InStep.represents (h : InStep L s m due) (hidle : idle s.sys) :
    Represents s.sys.shared lim m.cache.entries := by
  obtain ⟨rq, hf⟩ := h.follows
  exact (hf.of_idle hidle).2

/-- One client moves. -/
theorem talks_update (busy : Nat → Prop) {cl : Client} {p : Pending} {client : Nat → Client}
    {pending : Nat → Pending} (hk : Talk lim L (busy k) due cl p)
    (h : ∀ k', k' ≠ k → Talk lim L (busy k') due (client k') (pending k')) (k' : Nat) :
    Talk lim L (busy k') due (Function.update client k cl k') (Function.update pending k p k') := by
  by_cases hk' : k' = k
  · subst hk'
    rw [Function.update_self, Function.update_self]
    exact hk
  · rw [Function.update_of_ne hk', Function.update_of_ne hk']
    exact h k' hk'

theorem not_busy_of_idle (h : idle s.sys) : ¬ s.busy k := by
  intro hb
  obtain ⟨fd, j, hj, -⟩ := hb
  rw [h fd] at hj
  cases hj

/-- A worker connects nobody. -/
theorem connected_of_after {connected : Nat → Bool} {ev : Option Event} {fd' : Nat}
    (h : connectedAfter connected fd ev fd' = true) : connected fd' = true := by
  unfold connectedAfter at h
  split at h
  · split at h
    · cases h
    · exact h
  · exact h

/-- A request is taken from a client that is connected. -/
theorem connected_of_request {s t : Sys} {op : Op} (h : step s (.request fd op) = some t) :
    s.connected fd = true := by
  rcases step_cases h with ⟨_, hl, -⟩ | ⟨fd', op', hl, -, hc, -⟩ | ⟨_, _, _, hl, -⟩
  · cases hl
  · cases hl
    exact hc
  · cases hl

/-- Both begin with the empty cache. -/
theorem inStep_init {ram nfile : Int} {sockname : Bytes} (hram : 0 ≤ ram) (hnfile : 1 ≤ nfile) :
    InStep L (.init ram nfile sockname)
      (.empty ⟨ram, nfile, sockname⟩ hram (Int.le_trans (Int.zero_le_ofNat 1) hnfile)) [] := by
  refine ⟨base_init ram nfile sockname, ?_, fun fd hc => absurd hc Bool.false_ne_true,
    fun k => ?_, fun e he => (List.not_mem_nil he).elim⟩
  · exact ⟨none, .idle (fun fd => rfl) rfl (represents_init sockname hnfile)⟩
  · refine .resting fun hb => ?_
    obtain ⟨fd, j, hj, -⟩ := hb
    cases hj

/-! ## The steps -/

/-- Both note a new connection. -/
theorem inStep_connect (h : InStep L s m due) (hfree : s.sys.connected fd = false) :
    ∃ m', atomicStep m (.connected s.nextClient fd) = some m' ∧
      InStep L (s.connected fd) m' due := by
  have hstep : step s.sys (.accept fd) = some (s.sys.accepted fd) := by
    simp only [step, hfree]
    rfl
  obtain ⟨rq, hf⟩ := h.follows
  refine ⟨_, rfl, base_step h.base hstep, ⟨rq, follows_accepted hf⟩, fun fd' hc => ?_,
    fun k => ?_, h.carried⟩
  · show Function.update s.peer fd s.nextClient fd' < s.nextClient + 1 ∧
      Function.update m.fd s.nextClient fd (Function.update s.peer fd s.nextClient fd') = fd'
    by_cases hfd : fd' = fd
    · subst hfd
      rw [Function.update_self, Function.update_self]
      exact ⟨Nat.lt_succ_self _, rfl⟩
    · have hc : Function.update s.sys.connected fd true fd' = true := hc
      rw [Function.update_of_ne hfd] at hc ⊢
      obtain ⟨hlt, heq⟩ := h.peers fd' hc
      rw [Function.update_of_ne (Nat.ne_of_lt hlt)]
      exact ⟨Nat.lt_succ_of_lt hlt, heq⟩
  · -- no worker serves a descriptor that is not in use
    have hsame : (s.connected fd).busy k ↔ s.busy k := by
      have hpeer : ∀ fd' j, s.sys.job fd' = some j →
          Function.update s.peer fd s.nextClient fd' = s.peer fd' := by
        intro fd' j hj
        refine Function.update_of_ne (fun he => ?_) _ _
        have hc := h.base.conn fd' j hj
        rw [he, hfree] at hc
        cases hc
      constructor
      · intro hb
        obtain ⟨fd', j, hj, hp⟩ := hb
        exact ⟨fd', j, hj, (hpeer fd' j hj).symm.trans hp⟩
      · intro hb
        obtain ⟨fd', j, hj, hp⟩ := hb
        exact ⟨fd', j, hj, (hpeer fd' j hj).trans hp⟩
    rw [propext hsame]
    exact h.talks k

/-- A call leaves a valid request on the way. -/
theorem inStep_call (h : InStep L s m due) (hcalling : (s.client k).calling = none)
    (hv : c.Valid) (hs : c.Survives) (hshort : ∀ p, c.name = some p → p.length ≤ L) :
    ∃ m', atomicStep m (.called k c) = some m' ∧ InStep L (s.called k c) m' due := by
  obtain ⟨hrests, hcl, hp⟩ := (h.talks k).of_resting hcalling
  refine ⟨_, if_pos hp, h.base, h.follows, h.peers, ?_, h.carried⟩
  refine talks_update ((s.called k c).busy) ?_ fun k' _ => h.talks k'
  rw [hcl]
  exact .asked hrests hv hs hshort

/-- The request arrives as it was sent, and the cache serves it there. -/
theorem inStep_take {op : Op} {rest : Conn} (h : InStep L s m due)
    (hfit : (s.client (s.peer fd)).request ≠ [])
    (hserve : Wire.serve ⟨sched, (s.client (s.peer fd)).request⟩ = .ok (some op, rest))
    (hstep : step s.sys (.request fd op) = some (s.sys.taken fd op))
    (hg : orderly L s (.take fd sched)) :
    ∃ m' due', atomicStep m (.taken (s.peer fd)) = some m' ∧
      InStep L (s.taken fd op rest.stream) m' due' := by
  obtain ⟨hidle, hreads, hclean⟩ := hg
  obtain ⟨c, hcl, hp, hv, hs, hshort⟩ := (h.talks (s.peer fd)).of_request hfit
  rw [hcl] at hreads hclean hserve
  -- the request is parsed back
  obtain ⟨sched', hparse, -⟩ := @serve_eq c sched [] hv hs hreads
  rw [List.append_nil] at hparse
  obtain ⟨hop, hrest⟩ := Prod.mk.inj (Except.ok.inj (hparse.symm.trans hserve))
  obtain rfl := Option.some.inj hop
  have hfd := (h.peers fd (connected_of_request hstep)).2
  obtain ⟨rq, hbefore⟩ := h.follows
  obtain ⟨-, hf⟩ := follows_taken hbefore hidle (hclean c rfl)
  obtain ⟨r, hreplies, hkept⟩ := @replies_serve lim L fd _ m.cache.bounded h.carried c
  have htaken : atomicStep m (.taken (s.peer fd)) = some (m.taken (s.peer fd) c) := by
    simp only [atomicStep, hp]
  refine ⟨m.taken (s.peer fd) c, (serve lim fd c.op m.cache.entries).2, htaken,
    base_step h.base hstep, ?_, h.peers, ?_, ?_⟩
  · unfold Atomic.taken
    rw [hfd]
    exact ⟨_, hf⟩
  · have hothers : ∀ k', k' ≠ s.peer fd → ¬ (s.taken fd c.op rest.stream).busy k' := by
      intro k' hk' hb
      obtain ⟨fd', j, hj, hpeer⟩ := hb
      rcases job_taken hj with ⟨rfl, -⟩ | ⟨-, hold⟩
      · exact hk' hpeer.symm
      · rw [hidle fd'] at hold
        cases hold
    refine talks_update ((s.taken fd c.op rest.stream).busy) ?_ fun k' hk' => ?_
    · rw [hcl, ← hrest, hfd]
      exact @Talk.served lim L _ _ c [] r ⟨fd, _, Function.update_self .., rfl⟩ hreplies hkept
    · exact (h.talks k').elsewhere (not_busy_of_idle hidle) (hothers k' hk')
  · unfold Atomic.taken
    rw [hfd]
    refine carried_serve h.carried fun p flag hp => ?_
    cases c with
    | openFile path flags =>
      cases hp
      obtain ⟨hne, hnul⟩ := hv.name p rfl
      exact ⟨⟨hne, hs.no_comma p rfl, hnul⟩, hshort p rfl⟩
    | _ => cases hp

/-- A step of the worker sends a part of the reply. -/
theorem inStep_work {j : Job} {e : Effect} (h : InStep L s m due) (hj : s.sys.job fd = some j)
    (hw : wstep j.rq j.pc s.sys.shared = some e) : ∃ due', InStep L (s.worked fd j e) m due' := by
  have hstep : step s.sys (.work fd) = some (s.sys.after fd j e) := by
    simp only [step, hj, hw, Option.map_some]
  have hconn := h.base.conn fd j hj
  obtain ⟨rq, hbefore⟩ := h.follows
  obtain ⟨outs, -, hdue, hf⟩ := follows_work hbefore hj hw
  have hdue : due = shown e.event ++ outs := hdue
  have hb : s.busy (s.peer fd) := ⟨fd, j, hj, rfl⟩
  obtain ⟨c, sent, r, hcl, hp, hreplies, hkept⟩ := (h.talks (s.peer fd)).of_busy hb
  have hsent : sent ++ due = (sent ++ shown e.event) ++ outs := by
    rw [hdue, List.append_assoc]
  -- nobody else is served
  have halone : ∀ fd', fd' ≠ fd → s.sys.job fd' = none := by
    cases hbefore with
    | idle hidle =>
      rw [hidle fd] at hj
      cases hj
    | busy job alone =>
      intro fd' hfd'
      refine alone fd' fun he => hfd' (he.trans ?_)
      by_contra hne
      rw [alone fd fun he => hne he.symm] at hj
      cases hj
  have hothers : ∀ k', k' ≠ s.peer fd → ¬ s.busy k' ∧ ¬ (s.worked fd j e).busy k' := by
    intro k' hk'
    refine ⟨fun hb => ?_, fun hb => ?_⟩
    · obtain ⟨fd', j', hj', hpeer⟩ := hb
      by_cases hfd' : fd' = fd
      · exact hk' (by rw [← hpeer, hfd'])
      · rw [halone fd' hfd'] at hj'
        cases hj'
    · obtain ⟨fd', j', hj', hpeer⟩ := hb
      rcases job_after hj' with ⟨rfl, -⟩ | ⟨hne, hold⟩
      · exact hk' hpeer.symm
      · rw [halone fd' hne] at hold
        cases hold
  have hpending : m.pending = Function.update m.pending (s.peer fd) (m.pending (s.peer fd)) :=
    (Function.update_eq_self _ _).symm
  refine ⟨outs, base_step h.base hstep, ⟨rq, hf⟩, fun fd' hc => ?_, ?_, h.carried⟩
  · exact h.peers fd' (connected_of_after hc)
  · rw [hpending]
    refine talks_update ((s.worked fd j e).busy) ?_ fun k' hk' =>
      (h.talks k').elsewhere (hothers k' hk').1 (hothers k' hk').2
    rw [hcl, hp, hsent]
    rw [hsent] at hreplies
    rw [← List.flatMap_append]
    cases hpc : e.pc with
    | some pc =>
      refine .served ⟨fd, ⟨j.rq, pc⟩, ?_, rfl⟩ hreplies hkept
      show Function.update s.sys.job fd (e.pc.map _) fd = _
      rw [Function.update_self, hpc]
      rfl
    | none =>
      have hidle : idle (s.sys.after fd j e) := idle_after halone hpc
      obtain rfl : outs = [] := (hf.of_idle hidle).1
      rw [List.append_nil] at hreplies ⊢
      exact .ready (not_busy_of_idle hidle) hreplies hkept

/-- The reader of a call whose answer is there returns what is due. -/
theorem receive_ready (h : InStep L s m due) (hfit : Fits lim L)
    (hready : (s.client k).ready = true) (hn : (s.client k).answer.length ≤ dataReads sched) :
    ∃ c r sched', (s.client k).calling = some c ∧ m.pending k = .due r ∧
      callReceive ((s.client k).answer.length + 1) ⟨sched, (s.client k).answer⟩ c =
        .ok (r, ⟨sched', []⟩) := by
  obtain ⟨c, outs, r, hcl, hp, -, hreplies, hkept⟩ := (h.talks k).of_ready hready
  rw [hcl] at hn ⊢
  dsimp only at hn ⊢
  rw [hreplies.bytes] at hn ⊢
  have hframes : r.frames.length < r.bytes.length + 1 := Nat.lt_succ_of_le (frames_lt_bytes r)
  obtain ⟨sched', hread⟩ := receive_reply hkept hfit hframes hn
  refine ⟨c, r.meaning, sched', rfl, ?_, ?_⟩
  · rw [hp, hreplies.received hkept]
  · rw [hreplies.receive]
    exact hread

/-- The client reads the reply that the cache gave. -/
theorem inStep_receive {r : Received} {rest : Conn} (h : InStep L s m due) (hfit : Fits lim L)
    (hcalling : (s.client k).calling = some c) (hready : (s.client k).ready = true)
    (hr : callReceive ((s.client k).answer.length + 1) ⟨sched, (s.client k).answer⟩ c =
      .ok (r, rest)) (hg : orderly L s (.receive k sched)) :
    ∃ m', atomicStep m (.returned k r) = some m' ∧
      InStep L (s.returned k r rest.stream) m' due := by
  obtain ⟨c', r', sched', hc, hp, hread⟩ := receive_ready h hfit hready hg
  obtain rfl := Option.some.inj (hcalling.symm.trans hc)
  obtain ⟨rfl, rfl⟩ := Prod.mk.inj (Except.ok.inj (hread.symm.trans hr))
  obtain ⟨c', outs, reply, hcl, -, hrests, -, -⟩ := (h.talks k).of_ready hready
  refine ⟨_, if_pos hp, h.base, h.follows, h.peers, ?_, h.carried⟩
  refine talks_update s.busy ?_ fun k' _ => h.talks k'
  rw [hcl]
  exact .resting hrests

/-- Every step keeps the two in step. -/
theorem inStep_step {l : NetLabel} (h : InStep L s m due) (hfit : Fits lim L)
    (hg : orderly L s l) (hs : netStep s l = some t) :
    ∃ ev m' due', t.log = ev.toList ++ s.log ∧ observe atomicStep m ev = some m' ∧
      InStep L t m' due' := by
  rcases netStep_cases hs with ⟨fd, rfl, hfree, rfl⟩ | ⟨k, c, rfl, -, hcalling, rfl⟩ |
      ⟨fd, sched, op, rest, rfl, hne, hserve, hstep, rfl⟩ | ⟨fd, j, e, rfl, hj, hw, rfl⟩ |
      ⟨k, sched, c, r, rest, rfl, hcalling, hready, hr, rfl⟩
  · obtain ⟨m', hm, hin⟩ := inStep_connect h hfree
    exact ⟨some (.connected s.nextClient fd), m', due, rfl, hm, hin⟩
  · obtain ⟨hv, hsurv, hshort⟩ := hg
    obtain ⟨m', hm, hin⟩ := inStep_call h hcalling hv hsurv hshort
    exact ⟨some (.called k c), m', due, rfl, hm, hin⟩
  · obtain ⟨m', due', hm, hin⟩ := inStep_take h hne hserve hstep hg
    exact ⟨some (.taken (s.peer fd)), m', due', rfl, hm, hin⟩
  · obtain ⟨due', hin⟩ := inStep_work h hj hw
    exact ⟨none, m, due', rfl, rfl, hin⟩
  · obtain ⟨m', hm, hin⟩ := inStep_receive h hfit hcalling hready hr hg
    exact ⟨some (.returned k r), m', due, rfl, hm, hin⟩

/-! ## Nothing gets stuck -/

/-- The steps of a worker are those of the server. -/
theorem run_work {n : Nat} {s : Net} {u : Sys} (h : run step s.sys (works fd n) = some u) :
    ∃ t, run netStep s (List.replicate n (.work fd)) = some t ∧ t.sys = u := by
  induction n generalizing s with
  | zero => exact ⟨s, rfl, Option.some.inj h⟩
  | succ n ih =>
    simp only [works, List.replicate_succ, run] at h
    cases hj : s.sys.job fd with
    | none =>
      simp only [step, hj] at h
      cases h
    | some j =>
      cases hw : wstep j.rq j.pc s.sys.shared with
      | none =>
        simp only [step, hj, hw, Option.map_none] at h
        cases h
      | some e =>
        simp only [step, hj, hw, Option.map_some] at h
        obtain ⟨t, hrun, hsys⟩ := @ih (s.worked fd j e) h
        refine ⟨t, ?_, hsys⟩
        simp only [List.replicate_succ, run, netStep, hj, hw, Option.map_some]
        exact hrun

theorem bytes_ne_nil (hv : c.Valid) : c.bytes ≠ [] := by
  rw [Call.bytes_eq hv]
  intro h
  have hlen := congrArg List.length h
  rw [List.length_append, length_message] at hlen
  change 8 + c.text.length + c.payload.length = 0 at hlen
  omega

/-- What can be relied on between two requests, and on the way there. -/
structure Answers (s : Net) (m : Atomic lim) : Prop where
  /-- The memory holds the files of the cache. -/
  stored : idle s.sys → Represents s.sys.shared lim m.cache.entries
  /-- A request that was taken is finished. -/
  finishes : ¬ idle s.sys → ∃ fd n t, run netStep s (List.replicate n (.work fd)) = some t ∧
    idle t.sys
  /-- A request that waits in the socket can be taken. -/
  takes : ∀ fd c sched, idle s.sys → s.sys.connected fd = true →
    m.pending (s.peer fd) = .asked c → c.bytes.length ≤ dataReads sched →
    ∃ t, netStep s (.take fd sched) = some t
  /-- A call that was served returns. -/
  returns : ∀ k r sched, idle s.sys → m.pending k = .due r →
    (s.client k).answer.length ≤ dataReads sched →
    ∃ t, netStep s (.receive k sched) = some t ∧ t.log = .returned k r :: s.log

/-- What a client gets next is what the cache answered. -/
theorem answers_of_inStep (h : InStep L s m due) (hfit : Fits lim L) : Answers s m where
  stored hidle := h.represents hidle
  finishes hbusy := by
    obtain ⟨rq, hf⟩ := h.follows
    obtain ⟨fd, n, u, hrun, hidle⟩ := hf.of_busy hbusy
    obtain ⟨t, ht, hsys⟩ := run_work hrun
    exact ⟨fd, n, t, ht, hsys ▸ hidle⟩
  takes := by
    intro fd c sched hidle hconn hasked hn
    have htalk := h.talks (s.peer fd)
    rw [hasked] at htalk
    obtain ⟨hcl, hv, hs⟩ := htalk.of_asked
    obtain ⟨sched', hparse, -⟩ := @serve_eq c sched [] hv hs hn
    rw [List.append_nil] at hparse
    refine ⟨s.taken fd c.op [], ?_⟩
    simp only [netStep, hcl, if_neg (bytes_ne_nil hv), hparse, step, hidle fd, hconn, if_true]
  returns := by
    intro k r sched hidle hdue hn
    have hready : (s.client k).ready = true := by
      have htalk := h.talks k
      rw [hdue] at htalk
      cases hcl : s.client k with
      | mk calling request answer ready =>
        rw [hcl] at htalk
        cases htalk with
        | served works => exact absurd works (not_busy_of_idle hidle)
        | ready => rfl
    obtain ⟨c, r', sched', hcalling, hp, hread⟩ := receive_ready h hfit hready hn
    obtain rfl : r = r' := Pending.due.inj (hdue.symm.trans hp)
    refine ⟨s.returned k r [], ?_, rfl⟩
    simp only [netStep, hcalling, hready, if_true, hread]

end

/-- The history of a run is one of the cache. -/
theorem replay_of_reach {ram nfile : Int} {sockname : Bytes} {L : Nat} {s : Net} (hram : 0 ≤ ram)
    (hnfile : 1 ≤ nfile) (hfit : Fits ⟨ram, nfile, sockname⟩ L)
    (h : Reach netStep (orderly L) (.init ram nfile sockname) s) :
    ∃ m : Atomic ⟨ram, nfile, sockname⟩,
      replay atomicStep (.empty _ hram (Int.le_trans (Int.zero_le_ofNat 1) hnfile)) s.log =
        some m ∧ ∃ due, InStep L s m due := by
  refine h.replays Net.log (fun s m => ∃ due, InStep L s m due)
    ⟨rfl, [], inStep_init hram hnfile⟩ ?_
  intro s l t m _ hg hs hin
  obtain ⟨due, hin⟩ := hin
  obtain ⟨ev, m', due', hlog, hobs, hin'⟩ := inStep_step hin hfit hg hs
  exact ⟨ev, m', hlog, hobs, due', hin'⟩

/-- **Every call returns what the cache serves it**, at one point between its
start and its return, and no call gets stuck. -/
theorem calls_are_atomic {ram nfile : Int} {sockname : Bytes} {L : Nat} {s : Net} (hram : 0 ≤ ram)
    (hnfile : 1 ≤ nfile) (hfit : Fits ⟨ram, nfile, sockname⟩ L)
    (h : Reach netStep (orderly L) (.init ram nfile sockname) s) :
    ∃ m : Atomic ⟨ram, nfile, sockname⟩,
      replay atomicStep (.empty _ hram (Int.le_trans (Int.zero_le_ofNat 1) hnfile)) s.log =
        some m ∧ Answers s m := by
  obtain ⟨m, hm, due, hin⟩ := replay_of_reach hram hnfile hfit h
  exact ⟨m, hm, answers_of_inStep hin hfit⟩

/-! ## A run -/

/-- A test for calls. -/
def callTest (L : Nat) (c : Call) : Bool :=
  (c.name.all fun p => !p.isEmpty && !p.contains 0 && !p.contains comma && decide (p.length ≤ L)) &&
  decide (c.text.length < 2 ^ 31) && decide (c.payload.length < 2 ^ 31) &&
  match c with
  | .readNFiles n => decide (n < 2 ^ 31)
  | _ => true

/-- The test for a call can be run. -/
theorem valid_of_callTest {L : Nat} {c : Call} (h : callTest L c = true) :
    c.Valid ∧ c.Survives ∧ ∀ p, c.name = some p → p.length ≤ L := by
  simp only [callTest, Bool.and_eq_true, decide_eq_true_eq] at h
  obtain ⟨⟨⟨hname, htext⟩, hpayload⟩, hint⟩ := h
  have hword : ∀ p, c.name = some p → p ≠ [] ∧ (0 : UInt8) ∉ p ∧ comma ∉ p ∧ p.length ≤ L := by
    intro p hp
    simpa [hp, and_assoc] using hname
  have htoken : ∀ p, c.tokenised = some p → c.name = some p := by
    intro p hp
    cases c with
    | readNFiles | closeFile => cases hp
    | _ => exact hp
  refine ⟨⟨fun p hp => ⟨(hword p hp).1, (hword p hp).2.1⟩, Nat.lt_trans htext (by decide),
    Nat.lt_trans hpayload (by decide), fun n hn => ?_⟩, ⟨fun p hp => ?_, readable_of_lt htext,
    readable_of_lt hpayload⟩, fun p hp => (hword p hp).2.2.2⟩
  · rw [hn] at hint
    exact of_decide_eq_true hint
  · exact (hword p (htoken p hp)).2.2.1

/-- A test for orderly steps, when all descriptors are among `fds`. -/
def orderlyTest (fds : List Nat) (L : Nat) (s : Net) : NetLabel → Bool
  | .connect fd => fds.contains fd
  | .call _ c => callTest L c
  | .take fd sched => (fds.all fun fd => (s.sys.job fd).isNone) &&
      (decide ((s.client (s.peer fd)).request.length ≤ dataReads sched) &&
        (s.client (s.peer fd)).calling.all fun c => cleanTest s.sys.shared.storage c.op)
  | .work _ => true
  | .receive k sched => decide ((s.client k).answer.length ≤ dataReads sched)

/-- All descriptors are among `fds`. -/
structure Among (fds : List Nat) (s : Net) : Prop where
  base : Base s.sys
  mem : ∀ fd, s.sys.connected fd = true → fd ∈ fds

section

variable {fds : List Nat} {L : Nat} {s t : Net} {l : NetLabel}

/-- At first no descriptor is in use. -/
theorem among_init (fds : List Nat) (ram nfile : Int) (sockname : Bytes) :
    Among fds (.init ram nfile sockname) :=
  ⟨base_init ram nfile sockname, fun _ hc => absurd hc Bool.false_ne_true⟩

/-- Only the given descriptors are ever used. -/
theorem among_step (h : Among fds s) (hg : orderlyTest fds L s l = true)
    (hs : netStep s l = some t) : Among fds t := by
  obtain ⟨hb, hc⟩ := h
  rcases netStep_cases hs with ⟨fd, rfl, hfree, rfl⟩ | ⟨k, c, rfl, -, -, rfl⟩ |
      ⟨fd, sched, op, rest, rfl, -, -, hstep, rfl⟩ | ⟨fd, j, e, rfl, hj, hw, rfl⟩ |
      ⟨k, sched, c, r, rest, rfl, -, -, -, rfl⟩
  · have hstep : step s.sys (.accept fd) = some (s.sys.accepted fd) := by
      simp only [step, hfree]
      rfl
    refine ⟨base_step hb hstep, fun fd' hfd' => ?_⟩
    have hfd' : Function.update s.sys.connected fd true fd' = true := hfd'
    by_cases he : fd' = fd
    · rw [he]
      exact List.contains_iff_mem.mp hg
    · rw [Function.update_of_ne he] at hfd'
      exact hc fd' hfd'
  · exact ⟨hb, hc⟩
  · exact ⟨base_step hb hstep, hc⟩
  · have hstep : step s.sys (.work fd) = some (s.sys.after fd j e) := by
      simp only [step, hj, hw, Option.map_some]
    exact ⟨base_step hb hstep, fun fd' hfd' => hc fd' (connected_of_after hfd')⟩
  · exact ⟨hb, hc⟩

theorem Among.idle (h : Among fds s) (hnone : (fds.all fun fd => (s.sys.job fd).isNone) = true) :
    System.idle s.sys := by
  intro fd
  cases hj : s.sys.job fd with
  | none => rfl
  | some j =>
    have hfd := List.all_eq_true.mp hnone fd (h.mem fd (h.base.conn fd j hj))
    rw [hj] at hfd
    cases hfd

theorem Among.orderly (h : Among fds s) (hl : orderlyTest fds L s l = true) :
    Service.orderly L s l := by
  cases l with
  | call k c => exact valid_of_callTest hl
  | take fd sched =>
    obtain ⟨hnone, hrest⟩ := Bool.and_eq_true_iff.mp hl
    obtain ⟨hn, hclean⟩ := Bool.and_eq_true_iff.mp hrest
    refine ⟨h.idle hnone, of_decide_eq_true hn, fun c hcalling => ?_⟩
    rw [hcalling] at hclean
    exact clean_of_test hclean fd
  | receive k sched =>
    show (s.client k).answer.length ≤ dataReads sched
    exact of_decide_eq_true hl
  | _ => trivial

end

/-- A run that passes the tests is orderly. -/
theorem orderly_of_test {fds : List Nat} {L : Nat} {ram nfile : Int} {sockname : Bytes} {s : Net}
    (h : Reach netStep (fun s l => orderlyTest fds L s l = true) (.init ram nfile sockname) s) :
    Reach netStep (orderly L) (.init ram nfile sockname) s := by
  refine h.strengthen fun s l hs hl => @Among.orderly fds _ _ _ ?_ hl
  exact hs.invariant (Among fds) (among_init fds ram nfile sockname)
    fun _ _ _ h hg hs => among_step h hg hs

/-- One call of the client `k` on `fd`, which takes its worker `n` steps. -/
def roundTrip (k fd n : Nat) (c : Call) : List NetLabel :=
  [.call k c, .take fd (choppy 40)] ++ List.replicate n (.work fd) ++ [.receive k (choppy 40)]

/-- The call that has just returned. -/
def lastReturn (s : Net) : Option (Nat × Received) :=
  match s.log with
  | .returned k r :: _ => some (k, r)
  | _ => none

/-- With one slot, the file of the first client makes room for that of the
second, who is told so. -/
theorem calls_are_atomic_two_clients :
    ∃ s, Reach netStep (orderly 8) (.init 10 1 []) s ∧
      lastReturn s = some (1, .evicted 0 [[47, 97]]) ∧
      ∃ m : Atomic ⟨10, 1, []⟩,
        replay atomicStep (.empty _ (by decide) (by decide)) s.log = some m ∧ Answers s m := by
  obtain ⟨s, hr, hp⟩ := Reach.of_guarded_test netStep (orderlyTest [4, 5] 8) (.init 10 1 [])
    ([.connect 4, .connect 5] ++ roundTrip 0 4 4 (.openFile [47, 97] .create) ++
      roundTrip 0 4 9 (.appendToFile [47, 97] [120]) ++ roundTrip 0 4 3 (.closeFile [47, 97]) ++
      roundTrip 1 5 11 (.openFile [47, 98] .create))
    (fun s => lastReturn s == some (1, .evicted 0 [[47, 97]])) (by decide +kernel)
  have hclean := orderly_of_test hr
  refine ⟨s, hclean, beq_iff_eq.mp hp, ?_⟩
  exact calls_are_atomic (by decide) (by decide) ⟨by decide, by decide⟩ hclean

end FileStorage.Service
