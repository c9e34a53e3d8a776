import FileStorage.Worker.Cases

/-!
# A program counter belongs to its request

`threadF` selects a handler by `api_id` and never leaves it before the request
is over, so where a worker is says what it serves. `Handles rq pc` states it for
each program counter, with what the handler has already decided: the pathname
and the payload it still carries are those of the request, `O_CREATE` was not
refused where a file is being created, and the answer it is about to send is one
that its handler can give (`permitted`).

`handles_entry` and `handles_step` are the two halves of the invariant.
-/

namespace FileStorage.Worker

open FileStorage.Lib FileStorage.Storage

/-- The text answers a handler can give. READ FILE answers with a frame or with
`-1`, and CLOSE CONNECTION answers while it disconnects. -/
def permitted : Op → Answer → Bool
  | .openFile _ _, _ => true
  | .readFile _, a => a == .ko
  | .readNFiles _, a => a == .ko || a == .ok
  | .appendToFile _ _, a => a != .ok
  | .closeFile _, a => a == .ko || a == .ok
  | .closeConnection _, _ => false

/-- The flag lets a file be created: it is not `O_OPEN`. -/
def mayCreate (flag : Bytes) : Bool := !strncmpEq flag [48] 1

/-- The flag lets an existing file be opened: it is not `O_CREATE`. -/
def mayOpen (flag : Bytes) : Bool := !strncmpEq flag [49] 1

/-- The program counter belongs to the handler of the request. -/
def Handles (rq : Request) : Pc → Prop
  | .openSearch p fl => rq.op = .openFile p fl
  | .openPoll _ _ => ∃ p fl, rq.op = .openFile p fl ∧ mayOpen fl = true
  | .insert x _ _ => ∃ p fl, rq.op = .openFile p fl ∧ mayCreate fl = true ∧
      x = createFileNode p rq.fd
  | .readSearch p => rq.op = .readFile p
  | .readPoll _ _ => ∃ p, rq.op = .readFile p
  | .readLocked _ => ∃ p, rq.op = .readFile p
  | .readNStart n => rq.op = .readNFiles n
  | .readNHead _ => ∃ n, rq.op = .readNFiles n
  | .readNLoop _ _ _ => ∃ n, rq.op = .readNFiles n
  | .appSearch p c => rq.op = .appendToFile p c
  | .appPoll _ _ c => ∃ p, rq.op = .appendToFile p c
  | .appLocked _ c => ∃ p, rq.op = .appendToFile p c
  | .update _ c _ _ _ => ∃ p, rq.op = .appendToFile p c
  | .appStats a => ∃ p c, rq.op = .appendToFile p c ∧ permitted rq.op a = true
  | .closeSearch p => rq.op = .closeFile p
  | .closePoll _ _ => ∃ p, rq.op = .closeFile p
  | .closeConn sockname => rq.op = .closeConnection sockname
  | .reply a => permitted rq.op a = true

/-- Each request starts in its handler. -/
theorem handles_entry (id fd : Nat) (op : Op) : Handles ⟨id, fd, op⟩ (entry op) := by
  cases op <;> rfl

variable {rq : Request} {sh : Shared} {e : Effect} {pc q : Pc}

/-- Where OPEN FILE goes from its search, by the flag. -/
theorem openSearch_flag {p flag : Bytes} (h : wstep rq (.openSearch p flag) sh = some e)
    (hq : e.pc = some q) :
    q = .reply .ko ∨
    (q = .insert (createFileNode p rq.fd) [] .test ∧ mayCreate flag = true) ∨
    (∃ n, q = .openPoll n 0 ∧ mayOpen flag = true) := by
  simp only [wstep, goto] at h
  split at h
  · cases h
  · next o ho =>
    split at h
    · cases h
      cases hq
      exact .inl rfl
    · next hflag =>
      rw [Bool.not_eq_true, Bool.or_eq_false_iff, Bool.and_eq_false_imp,
        Bool.and_eq_false_imp] at hflag
      cases o with
      | none =>
        cases h
        cases hq
        exact .inr (.inl ⟨rfl, by rw [mayCreate, hflag.2 rfl]; rfl⟩)
      | some n =>
        cases h
        cases hq
        exact .inr (.inr ⟨n, rfl, by rw [mayOpen, hflag.1 rfl]; rfl⟩)

/-- A silent step other than the search of OPEN FILE. -/
theorem handles_goes {st : InfoStorage} (hg : Goes rq st pc q) (h : Handles rq pc)
    (hopen : ∀ p fl, pc ≠ .openSearch p fl) : Handles rq q := by
  -- an answer is permitted when it is for this request
  have reply : ∀ {op : Op} {a : Answer}, rq.op = op → permitted op a = true →
      Handles rq (.reply a) := by
    intro op a hop hperm
    show permitted rq.op a = true
    rw [hop]
    exact hperm
  cases hg with
  | openKo => exact absurd rfl (hopen _ _)
  | openNew => exact absurd rfl (hopen _ _)
  | openOld => exact absurd rfl (hopen _ _)
  | openWait => exact h
  | openGiveUp =>
    obtain ⟨p, fl, hop, -⟩ := h
    exact reply hop rfl
  | readKo => exact reply h rfl
  | readFound => exact ⟨_, h⟩
  | readWait => exact h
  | readGo => exact h
  | readDeny =>
    obtain ⟨p, hop⟩ := h
    exact reply hop rfl
  | nStart => exact ⟨_, h⟩
  | nHead => exact h
  | nSkip => exact h
  | nEnd =>
    obtain ⟨n, hop⟩ := h
    exact reply hop (by split <;> rfl)
  | appKo =>
    have hop : rq.op = _ := h
    exact ⟨_, _, hop, by rw [hop]; rfl⟩
  | appFound => exact ⟨_, h⟩
  | appWait => exact h
  | appGo => exact h
  | appDeny =>
    obtain ⟨p, hop⟩ := h
    exact ⟨p, _, hop, by rw [hop]; rfl⟩
  | appStart => exact h
  | closeKo => exact reply h rfl
  | closeFound => exact ⟨_, h⟩
  | closeWait => exact h
  | closeGiveUp =>
    obtain ⟨p, hop⟩ := h
    exact reply hop rfl

theorem handles_insert {x : Node} {rm : Bytes} {p : InsPc} (h : Handles rq (.insert x rm p))
    (hw : insertStep rq x rm p sh = some e) (hq : e.pc = some q) : Handles rq q := by
  obtain ⟨name, fl, hop, hc, hx⟩ := h
  cases insertStep_cases hw with
  | go => cases hq; exact ⟨name, fl, hop, hc, hx⟩
  | evict => cases hq; exact ⟨name, fl, hop, hc, hx⟩
  | fail => cases hq; show permitted rq.op _ = true; rw [hop]; rfl
  | commit => cases hq; show permitted rq.op _ = true; rw [hop]; rfl

theorem handles_update {n : NodeId} {c rm : Bytes} {cf : Option Ptr} {p : UpdPc}
    (h : Handles rq (.update n c rm cf p)) (hw : updateStep rq n c rm cf p sh = some e)
    (hq : e.pc = some q) : Handles rq q := by
  obtain ⟨name, hop⟩ := h
  have stats : ∀ {a : Answer}, permitted (.appendToFile name c) a = true →
      Handles rq (.appStats a) := by
    intro a hperm
    exact ⟨name, c, hop, by rw [hop]; exact hperm⟩
  cases updateStep_cases hw with
  | go => cases hq; exact ⟨name, hop⟩
  | evict => cases hq; exact ⟨name, hop⟩
  | delete => cases hq; exact stats rfl
  | fail => cases hq; exact stats rfl
  | deny => cases hq; exact stats rfl
  | commit => cases hq; exact stats rfl

/-- And stays in it. -/
theorem handles_step (h : Handles rq pc) (hw : wstep rq pc sh = some e) (hq : e.pc = some q) :
    Handles rq q := by
  by_cases hopen : ∃ p fl, pc = .openSearch p fl
  · obtain ⟨p, flag, rfl⟩ := hopen
    have hop : rq.op = .openFile p flag := h
    rcases openSearch_flag hw hq with rfl | ⟨rfl, hc⟩ | ⟨n, rfl, ho⟩
    · show permitted rq.op _ = true
      rw [hop]
      rfl
    · exact ⟨p, flag, hop, hc, rfl⟩
    · exact ⟨p, flag, hop, ho⟩
  · cases wstep_cases hw with
    | go hg =>
      cases hq
      exact handles_goes hg h fun p fl he => hopen ⟨p, fl, he⟩
    | insert he => exact handles_insert h he hq
    | update he => exact handles_update h he hq
    | openTake =>
      obtain ⟨p, fl, hop, -⟩ := h
      cases hq
      show permitted rq.op _ = true
      rw [hop]
      rfl
    | closeTake =>
      obtain ⟨p, hop⟩ := h
      cases hq
      show permitted rq.op _ = true
      rw [hop]
      rfl
    | readSend => cases hq
    | nSend => cases hq; exact h
    | stats =>
      obtain ⟨p, c, -, hperm⟩ := h
      cases hq
      exact hperm
    | closeConn => cases hq
    | reply => cases hq

end FileStorage.Worker
