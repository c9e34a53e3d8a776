import FileStorage.System.Base

/-!
# Which APPEND requests were committed

Every request has an identity, so the history says which APPENDs have been
committed: `appendedIds`. This module relates them to the answers. A worker
that serves an APPEND carries its payload (`payload`) until `UpdateFile`
returns, and from then on the verdict of its answer (`verdict`).

`Ledger` is the invariant: an APPEND under way is not committed, its verdict is
not `-1` exactly when it has been committed, and no request is committed twice.
It holds in every run.
-/

namespace FileStorage.System

open FileStorage.Lib FileStorage.Storage FileStorage.Worker

/-- The payload of an APPEND that `UpdateFile` has not decided yet. -/
def payload : Pc → Option Bytes
  | .appSearch _ c => some c
  | .appPoll _ _ c => some c
  | .appLocked _ c => some c
  | .update _ c _ _ _ => some c
  | _ => none

/-- The answer a worker is going to send. -/
def verdict : Pc → Option Answer
  | .appStats a => some a
  | .reply a => some a
  | _ => none

/-- The payload of an APPEND request. -/
def appendOp : Op → Option Bytes
  | .appendToFile _ c => some c
  | _ => none

/-- The identities of the committed APPENDs. -/
def appendedIds : List Event → List Nat
  | [] => []
  | .appended rq _ _ :: log => rq.id :: appendedIds log
  | _ :: log => appendedIds log

/-- What a commit says about its request. -/
def isAppend : Option Event → Bool
  | some (.appended _ _ _) => true
  | _ => false

section

variable {rq rq' : Request} {A : Bytes → Prop} {pc q : Pc} {pc' : Option Pc} {st st' : Store}
variable {ev : Option Event} {n : NodeId} {c : Bytes} {a : Answer} {log : List Event}

theorem payload_trans (h : Trans rq A pc st pc' st' ev) (hq : pc' = some q)
    (hc : payload q = some c) : payload pc = some c ∧ isAppend ev = false := by
  cases h <;> cases hq <;> first | exact ⟨hc, rfl⟩ | cases hc

/-- A verdict is passed on, or it is the result of `UpdateFile` or of the
search before it, or it belongs to another request. -/
theorem verdict_trans (h : Trans rq A pc st pc' st' ev) (hq : pc' = some q)
    (ha : verdict q = some a) :
    (verdict pc = some a ∧ isAppend ev = false) ∨
    (∃ c, payload pc = some c ∧ (a ≠ .ko ↔ isAppend ev = true)) ∨
    (payload pc = none ∧ verdict pc = none ∧ isAppend ev = false) := by
  cases h with
  | stats => cases hq; cases ha; exact .inl ⟨rfl, rfl⟩
  | appKo => cases hq; cases ha; exact .inr (.inl ⟨_, rfl, by simp [isAppend]⟩)
  | appDeny => cases hq; cases ha; exact .inr (.inl ⟨_, rfl, by simp [isAppend]⟩)
  | updFail => cases hq; cases ha; exact .inr (.inl ⟨_, rfl, by simp [isAppend]⟩)
  | updDelete => cases hq; cases ha; exact .inr (.inl ⟨_, rfl, by simp [isAppend]⟩)
  | updCommit => cases hq; cases ha; exact .inr (.inl ⟨_, rfl, by simp [isAppend]⟩)
  | _ => cases hq <;> first | exact .inr (.inr ⟨rfl, rfl, rfl⟩) | cases ha

theorem other_trans (h : Trans rq A pc st pc' st' ev) (hq : pc' = some q)
    (hp : payload q = none) (hv : verdict q = none) : payload pc = none ∧ verdict pc = none := by
  cases h <;> cases hq <;> first | exact ⟨rfl, rfl⟩ | simp [payload, verdict] at hp hv

/-- A commit is made by the worker that carries the payload. -/
theorem appended_trans (h : Trans rq A pc st pc' st' ev) (hev : ev = some (.appended rq' n c)) :
    rq' = rq ∧ payload pc = some c := by
  cases h <;> cases hev
  exact ⟨rfl, rfl⟩

theorem answered_trans (h : Trans rq A pc st pc' st' ev) (hev : ev = some (.answered rq' a)) :
    rq' = rq ∧ pc = .reply a ∧ pc' = none := by
  cases h <;> cases hev
  exact ⟨rfl, rfl, rfl⟩

theorem appendedIds_event (h : isAppend ev = false) :
    appendedIds (ev.toList ++ log) = appendedIds log := by
  cases ev with
  | none => rfl
  | some e => cases e <;> first | rfl | cases h

theorem event_of_isAppend (h : isAppend ev = true) : ∃ rq n c, ev = some (.appended rq n c) := by
  cases ev with
  | none => cases h
  | some e => cases e <;> first | exact ⟨_, _, _, rfl⟩ | cases h

/-- The committed identities after a step: the same, or one more, which is that
of the request whose payload the worker carried. -/
theorem appendedIds_trans (h : Trans rq A pc st pc' st' ev) (log : List Event) :
    (isAppend ev = false ∧ appendedIds (ev.toList ++ log) = appendedIds log) ∨
    (isAppend ev = true ∧ appendedIds (ev.toList ++ log) = rq.id :: appendedIds log ∧
      ∃ c, payload pc = some c) := by
  cases hev : isAppend ev with
  | false => exact .inl ⟨rfl, appendedIds_event hev⟩
  | true =>
    obtain ⟨rq', n, c, he⟩ := event_of_isAppend hev
    obtain ⟨rfl, hp⟩ := appended_trans h he
    exact .inr ⟨rfl, by rw [he]; rfl, c, hp⟩

end

structure Ledger (s : Sys) : Prop where
  ids : ∀ fd fd' j j', s.job fd = some j → s.job fd' = some j' → j.rq.id = j'.rq.id → fd = fd'
  pending : ∀ fd j c, s.job fd = some j → payload j.pc = some c →
    appendOp j.rq.op = some c ∧ j.rq.id ∉ appendedIds s.log
  other : ∀ fd j, s.job fd = some j → payload j.pc = none → verdict j.pc = none →
    appendOp j.rq.op = none
  decided : ∀ fd j a, s.job fd = some j → verdict j.pc = some a → appendOp j.rq.op ≠ none →
    (a ≠ .ko ↔ j.rq.id ∈ appendedIds s.log)
  known : ∀ rq n c, .appended rq n c ∈ s.log → appendOp rq.op = some c
  past : ∀ i ∈ appendedIds s.log, i < s.nextId
  once : (appendedIds s.log).Nodup
  answered : ∀ rq a, .answered rq a ∈ s.log → rq.id < s.nextId ∧
    (∀ fd j, s.job fd = some j → j.rq.id ≠ rq.id) ∧
    (appendOp rq.op ≠ none → (a ≠ .ko ↔ rq.id ∈ appendedIds s.log))

theorem ledger_init (ram nfile : Int) (sockname : Bytes) : Ledger (init ram nfile sockname) where
  ids := by intro fd fd' j j' h; cases h
  pending := by intro fd j c h; cases h
  other := by intro fd j h; cases h
  decided := by intro fd j a h; cases h
  known := by intro rq n c h; cases h
  past := by intro i h; cases h
  once := List.nodup_nil
  answered := by intro rq a h; cases h

/-- Taking a request. -/
theorem ledger_taken {s : Sys} {fd : Nat} {op : Op} (hb : Base s) (hi : Ledger s) :
    Ledger (s.taken fd op) := by
  -- the identity is new, so nothing was committed under it
  have hnew : s.nextId ∉ appendedIds s.log := fun h => Nat.lt_irrefl _ (hi.past _ h)
  have hlog : appendedIds (s.taken fd op).log = appendedIds s.log := rfl
  refine ⟨fun a b j j' hj hj' he => ?_, fun a j c hj hc => ?_, fun a j hj hp hv => ?_,
    fun a j v hj hv hop => ?_, fun rq n c hm => ?_, fun i hmem => ?_, hi.once, fun rq a hm => ?_⟩
  · rcases job_taken hj with ⟨rfl, rfl⟩ | ⟨hne, hold⟩ <;>
      rcases job_taken hj' with ⟨rfl, rfl⟩ | ⟨hne', hold'⟩
    · rfl
    · exact absurd he (Ne.symm (Nat.ne_of_lt (hb.id b j' hold')))
    · exact absurd he (Nat.ne_of_lt (hb.id a j hold))
    · exact hi.ids a b j j' hold hold' he
  · rcases job_taken hj with ⟨rfl, rfl⟩ | ⟨-, hold⟩
    · refine ⟨?_, hnew⟩
      cases op <;> cases hc
      rfl
    · exact hi.pending a j c hold hc
  · rcases job_taken hj with ⟨rfl, rfl⟩ | ⟨-, hold⟩
    · cases op <;> first | rfl | cases hp
    · exact hi.other a j hold hp hv
  · rcases job_taken hj with ⟨rfl, rfl⟩ | ⟨-, hold⟩
    · cases op <;> cases hv
    · exact hi.decided a j v hold hv hop
  · rcases List.mem_cons.mp hm with hm | hm
    · cases hm
    · exact hi.known rq n c hm
  · exact Nat.lt_succ_of_lt (hi.past i hmem)
  · rcases List.mem_cons.mp hm with hm | hm
    · cases hm
    · obtain ⟨hid, hjobs, hans⟩ := hi.answered rq a hm
      refine ⟨Nat.lt_succ_of_lt hid, fun b j hj => ?_, hans⟩
      rcases job_taken hj with ⟨rfl, rfl⟩ | ⟨-, hold⟩
      · exact Ne.symm (Nat.ne_of_lt hid)
      · exact hjobs b j hold

section

variable {s : Sys} {fd fd' : Nat} {j j' : Job} {e : Effect} {A : Bytes → Prop} {q : Pc}

/-- Two requests under way have different identities. -/
theorem Ledger.id_ne (hi : Ledger s) (hj : s.job fd = some j) (hne : fd' ≠ fd)
    (hj' : s.job fd' = some j') : j'.rq.id ≠ j.rq.id :=
  fun he => hne (hi.ids _ _ _ _ hj' hj he)

/-- The committed identities after a worker's step. -/
theorem appendedIds_after
    (htr : Trans j.rq A j.pc s.store e.pc (s.after fd j e).store e.event) :
    (isAppend e.event = false ∧ appendedIds (s.after fd j e).log = appendedIds s.log) ∨
    (isAppend e.event = true ∧
      appendedIds (s.after fd j e).log = j.rq.id :: appendedIds s.log ∧
      ∃ c, payload j.pc = some c) :=
  appendedIds_trans htr s.log

/-- Another request is as committed as before. -/
theorem mem_appendedIds_after {i : Nat}
    (htr : Trans j.rq A j.pc s.store e.pc (s.after fd j e).store e.event)
    (hne : i ≠ j.rq.id) :
    i ∈ appendedIds (s.after fd j e).log ↔ i ∈ appendedIds s.log := by
  rcases appendedIds_after htr with ⟨-, hsame⟩ | ⟨-, hcons, -⟩
  · rw [hsame]
  · rw [hcons, List.mem_cons, or_iff_right hne]

/-- A worker that still carries the payload has not committed it. -/
theorem Ledger.pending_own {c : Bytes} (hi : Ledger s) (hj : s.job fd = some j)
    (htr : Trans j.rq A j.pc s.store e.pc (s.after fd j e).store e.event)
    (hq : e.pc = some q) (hc : payload q = some c) :
    appendOp j.rq.op = some c ∧ j.rq.id ∉ appendedIds (s.after fd j e).log := by
  obtain ⟨hp, hno⟩ := payload_trans htr hq hc
  obtain ⟨hop, hnot⟩ := hi.pending fd j c hj hp
  rcases appendedIds_after htr with ⟨-, hsame⟩ | ⟨hyes, -⟩
  · exact ⟨hop, by rw [hsame]; exact hnot⟩
  · rw [hno] at hyes; cases hyes

/-- The verdict of a worker says whether it has committed its payload. -/
theorem Ledger.decided_own {v : Answer} (hi : Ledger s) (hj : s.job fd = some j)
    (htr : Trans j.rq A j.pc s.store e.pc (s.after fd j e).store e.event)
    (hq : e.pc = some q) (hv : verdict q = some v) (hop : appendOp j.rq.op ≠ none) :
    v ≠ .ko ↔ j.rq.id ∈ appendedIds (s.after fd j e).log := by
  have hids := appendedIds_after htr
  rcases verdict_trans htr hq hv with ⟨hv', hno⟩ | ⟨c, hp, hiff⟩ | ⟨hp, hv', hno⟩
  · -- the verdict was there before
    rcases hids with ⟨-, hsame⟩ | ⟨hyes, -⟩
    · rw [hsame]; exact hi.decided fd j v hj hv' hop
    · rw [hno] at hyes; cases hyes
  · -- `UpdateFile` decides it now
    obtain ⟨-, hnot⟩ := hi.pending fd j c hj hp
    rcases hids with ⟨hno, hsame⟩ | ⟨hyes, hcons, -⟩
    · rw [hsame, hiff, hno]
      exact ⟨(fun h => by cases h), fun h => absurd h hnot⟩
    · rw [hcons, hiff, hyes]
      exact ⟨fun _ => List.mem_cons_self .., fun _ => rfl⟩
  · exact absurd (hi.other fd j hj hp hv') hop

/-- A worker's step. -/
theorem ledger_after (hb : Base s) (hi : Ledger s) (hj : s.job fd = some j)
    (htr : Trans j.rq A j.pc s.store e.pc (s.after fd j e).store e.event) :
    Ledger (s.after fd j e) := by
  have hlog : (s.after fd j e).log = e.event.toList ++ s.log := rfl
  have hids := appendedIds_after htr
  refine ⟨fun a b i i' hi₁ hi₂ he => ?_, fun a i c hi₁ hc => ?_, fun a i hi₁ hp hv => ?_,
    fun a i v hi₁ hv hop => ?_, fun rq n c hm => ?_, fun i hmem => ?_, ?_, fun rq a hm => ?_⟩
  · rcases job_after hi₁ with ⟨rfl, q, hq, rfl⟩ | ⟨hne, hold⟩ <;>
      rcases job_after hi₂ with ⟨rfl, q', hq', rfl⟩ | ⟨hne', hold'⟩
    · rfl
    · have hid := hi.id_ne hj hne' hold'
      exact absurd he.symm hid
    · have hid := hi.id_ne hj hne hold
      exact absurd he hid
    · exact hi.ids a b i i' hold hold' he
  · rcases job_after hi₁ with ⟨rfl, q, hq, rfl⟩ | ⟨hne, hold⟩
    · have hown := hi.pending_own hj htr hq hc
      exact hown
    · obtain ⟨hop, hnot⟩ := hi.pending a i c hold hc
      have hsame := mem_appendedIds_after htr (hi.id_ne hj hne hold)
      exact ⟨hop, fun hmem => hnot (hsame.mp hmem)⟩
  · rcases job_after hi₁ with ⟨rfl, q, hq, rfl⟩ | ⟨-, hold⟩
    · obtain ⟨hp', hv'⟩ := other_trans htr hq hp hv
      exact hi.other a j hj hp' hv'
    · exact hi.other a i hold hp hv
  · rcases job_after hi₁ with ⟨rfl, q, hq, rfl⟩ | ⟨hne, hold⟩
    · exact hi.decided_own hj htr hq hv hop
    · rw [mem_appendedIds_after htr (hi.id_ne hj hne hold)]
      exact hi.decided a i v hold hv hop
  · rw [hlog] at hm
    rcases List.mem_append.mp hm with hm | hm
    · obtain ⟨rfl, hp⟩ := appended_trans htr (Option.mem_toList.mp hm)
      exact (hi.pending fd j c hj hp).1
    · exact hi.known rq n c hm
  · rcases hids with ⟨-, hsame⟩ | ⟨-, hcons, -⟩
    · exact hi.past i (hsame ▸ hmem)
    · rw [hcons] at hmem
      rcases List.mem_cons.mp hmem with rfl | hmem
      · exact hb.id fd j hj
      · exact hi.past i hmem
  · rcases hids with ⟨-, hsame⟩ | ⟨-, hcons, c, hp⟩
    · rw [hsame]; exact hi.once
    · rw [hcons]
      exact List.nodup_cons.mpr ⟨(hi.pending fd j c hj hp).2, hi.once⟩
  · rw [hlog] at hm
    rcases List.mem_append.mp hm with hm | hm
    · -- the answer that this step sends
      have hev := Option.mem_toList.mp hm
      obtain ⟨rfl, hpc, hnone⟩ := answered_trans htr hev
      refine ⟨hb.id fd j hj, fun b i hi₁ => ?_, fun hop => ?_⟩
      · rcases job_after hi₁ with ⟨rfl, q, hq, rfl⟩ | ⟨hne, hold⟩
        · rw [hnone] at hq; cases hq
        · exact hi.id_ne hj hne hold
      · rw [hlog, hev]
        exact hi.decided fd j a hj (by rw [hpc]; rfl) hop
    · obtain ⟨hid, hjobs, hans⟩ := hi.answered rq a hm
      have hne : rq.id ≠ j.rq.id := Ne.symm (hjobs fd j hj)
      refine ⟨hid, fun b i hi₁ => ?_,
        fun hop => (hans hop).trans (mem_appendedIds_after htr hne).symm⟩
      rcases job_after hi₁ with ⟨rfl, q, hq, rfl⟩ | ⟨-, hold⟩
      · exact Ne.symm hne
      · exact hjobs b i hold

end

theorem ledger_step {s t : Sys} {l : Label} (hb : Base s) (hi : Ledger s)
    (h : step s l = some t) : Ledger t := by
  rcases step_cases h with ⟨fd, rfl, hc, rfl⟩ | ⟨fd, op, rfl, hj, hc, rfl⟩ |
      ⟨fd, j, e, rfl, hj, -, -⟩
  · refine ⟨hi.ids, hi.pending, hi.other, hi.decided, fun rq n c hm => ?_, hi.past, hi.once,
      fun rq a hm => ?_⟩
    · rcases List.mem_cons.mp hm with hm | hm
      · cases hm
      · exact hi.known rq n c hm
    · rcases List.mem_cons.mp hm with hm | hm
      · cases hm
      · exact hi.answered rq a hm
  · exact ledger_taken hb hi
  · obtain ⟨j, e, hj, rfl, htr⟩ := work_cases h
    exact ledger_after hb hi hj htr

end FileStorage.System
