import FileStorage.System.Pointers

/-!
# Ownership between open and close

`holds log fd n` reads off the history whether the client `fd` has file `n`
open: its last event about it was an OPEN, not a CLOSE FILE, an oversize append
that deleted the file, or the end of the connection. The file should then be
stored, and `fdClient_id` should name this client.

Five of the six handlers keep it. They write the owner of a file only when it
is closed or when it is theirs, and `removeFile` takes closed files only. The
oversize append writes without looking, but the handler has checked the owner
before it called `UpdateFile`, and in between nobody can have changed it
(`ownInv_step`). READ N is the exception: it marks every file it sends as
closed, whoever has it open. `readsClosed` is the condition that it only meets
closed files.

A worker that comes to a removed node has no defined step, and what it then answers
is not said here. `keepsPointers` keeps a run away from it.
-/

namespace FileStorage.System

open FileStorage.Lib FileStorage.Storage FileStorage.Worker

/-- The client has the file open, by the history. -/
def holds : List Event → Nat → NodeId → Bool
  | [], _, _ => false
  | .opened rq m :: log, fd, n => if rq.fd = fd ∧ m = n then true else holds log fd n
  | .closed rq m :: log, fd, n => if rq.fd = fd ∧ m = n then false else holds log fd n
  | .deleted rq m :: log, fd, n => if rq.fd = fd ∧ m = n then false else holds log fd n
  | .disconnected rq _ :: log, fd, n => if rq.fd = fd then false else holds log fd n
  | _ :: log, fd, n => holds log fd n

/-- A file that READ N is about to send is closed. -/
def readsClosed (s : Sys) : Label → Bool
  | .work fd =>
    match s.pc fd with
    | some (.readNLoop _ k (some n)) =>
      match s.shared.storage.file n with
      | some f => k ≤ 0 || f.modified == -1 || f.fdClientId == -1
      | none => true
    | _ => true
  | _ => true

/-- The file a worker inside `UpdateFile` appends to. -/
def updating : Pc → Option NodeId
  | .update n _ _ _ _ => some n
  | _ => none

section

variable {rq : Request} {A : Bytes → Prop} {pc q : Pc} {pc' : Option Pc} {st st' : Store}
variable {ev : Option Event} {n m : NodeId} {fd : Int}

/-- A worker is inside `UpdateFile` because it was there before, or because it
has just seen that it owns the file. -/
theorem updating_trans (h : Trans rq A pc st pc' st' ev) (hq : pc' = some q)
    (hn : updating q = some n) :
    updating pc = some n ∨ (st' = st ∧ st.Owned n rq.fd) := by
  cases h with
  | updMove => cases hq; exact .inl hn
  | updEvict => cases hq; exact .inl hn
  | @appStart n c s f hf ho =>
    cases hq
    have hmn := Option.some.inj hn
    exact .inr ⟨rfl, f, hmn ▸ hf, ho⟩
  | _ => cases hq <;> cases hn

/-- An open file stays with its owner, unless the owner itself gives it up in
this step. `hread` is the condition on READ N. -/
theorem owned_trans (h : Trans rq A pc st pc' st' ev) (hfresh : st.Fresh)
    (hupd : ∀ n, updating pc = some n → st.Owned n rq.fd)
    (hread : ∀ ch k n f, pc = .readNLoop ch k (some n) → 0 < k → st.files n = some f →
      f.modified ≠ -1 → f.fdClientId = -1)
    (ho : st.Owned m fd) (hfd : fd ≠ -1) :
    st'.Owned m fd ∨ (fd = rq.fd ∧ (ev = some (.closed rq m) ∨ ev = some (.deleted rq m))) := by
  -- a step on a file whose owner is not `fd` is a step on another file
  have other : ∀ {n : NodeId} {v : Int}, st.Owned n v → v ≠ fd → m ≠ n := by
    intro n v hn hv hmn
    subst hmn
    exact hv (hn.unique ho)
  cases h with
  | insCommit => exact .inl (ho.insert hfresh)
  | updCommit => exact .inl ho.append
  | openTake hf hc => exact .inl (ho.setFd (other ⟨_, hf, hc⟩ (Ne.symm hfd)))
  | insEvict hf he =>
    exact .inl (ho.remove (other (Store.owned_of_evictable hf he) (Ne.symm hfd)))
  | updEvict hf he =>
    exact .inl (ho.remove (other (Store.owned_of_evictable hf he) (Ne.symm hfd)))
  | nSend hk hf hm =>
    have hc := hread _ _ _ _ rfl hk hf hm
    exact .inl (ho.setFd (other ⟨_, hf, hc⟩ (Ne.symm hfd)))
  | @closeTake n c s f hf hown =>
    by_cases hmn : m = n
    · subst hmn
      exact .inr ⟨ho.unique ⟨f, hf, hown⟩, .inl rfl⟩
    · exact .inl (ho.setFd hmn)
  | @updDelete n c rm cf s f hf =>
    by_cases hmn : m = n
    · subst hmn
      exact .inr ⟨ho.unique (hupd m rfl), .inr rfl⟩
    · exact .inl (ho.remove hmn)
  | _ => exact .inl ho

/-- Giving a file up leaves `UpdateFile`. -/
theorem givenUp_trans (h : Trans rq A pc st pc' st' ev) {rq' : Request}
    (hev : ev = some (.closed rq' n) ∨ ev = some (.deleted rq' n)) (hq : pc' = some q) :
    updating q = none := by
  rcases hev with hev | hev <;> cases h <;> cases hev <;> cases hq <;> rfl

end

/-- What the history says after a step: the client has opened the file in it, or has
had it open and has not given it up. -/
theorem holds_event {ev : Option Event} {log : List Event} {fd : Nat} {n : NodeId}
    (h : holds (ev.toList ++ log) fd n = true) :
    (∃ rq, ev = some (.opened rq n) ∧ rq.fd = fd) ∨
      (holds log fd n = true ∧ ∀ rq, rq.fd = fd →
        ev ≠ some (.closed rq n) ∧ ev ≠ some (.deleted rq n)) := by
  cases ev with
  | none => exact .inr ⟨h, fun rq _ => ⟨nofun, nofun⟩⟩
  | some ev =>
    simp only [Option.toList_some, List.cons_append, List.nil_append] at h
    cases ev with
    | opened rq m =>
      by_cases hc : rq.fd = fd ∧ m = n
      · exact .inl ⟨rq, by rw [hc.2], hc.1⟩
      · exact .inr ⟨(if_neg hc).symm.trans h, fun rq _ => ⟨nofun, nofun⟩⟩
    | closed rq m =>
      by_cases hc : rq.fd = fd ∧ m = n
      · exact absurd ((if_pos hc).symm.trans h) Bool.false_ne_true
      · refine .inr ⟨(if_neg hc).symm.trans h, fun rq' hfd => ⟨fun heq => hc ?_, nofun⟩⟩
        cases heq
        exact ⟨hfd, rfl⟩
    | deleted rq m =>
      by_cases hc : rq.fd = fd ∧ m = n
      · exact absurd ((if_pos hc).symm.trans h) Bool.false_ne_true
      · refine .inr ⟨(if_neg hc).symm.trans h, fun rq' hfd => ⟨nofun, fun heq => hc ?_⟩⟩
        cases heq
        exact ⟨hfd, rfl⟩
    | disconnected rq a =>
      by_cases hc : rq.fd = fd
      · exact absurd ((if_pos hc).symm.trans h) Bool.false_ne_true
      · exact .inr ⟨(if_neg hc).symm.trans h, fun rq _ => ⟨nofun, nofun⟩⟩
    | _ => exact .inr ⟨h, fun rq _ => ⟨nofun, nofun⟩⟩

/-- What the history says, and what a worker inside `UpdateFile` relies on. -/
structure OwnInv (s : Sys) : Prop where
  base : Base s
  updating : ∀ fd j n, s.job fd = some j → updating j.pc = some n → s.store.Owned n fd
  held : ∀ fd n, holds s.log fd n = true → s.store.Owned n fd

theorem ownInv_init (ram nfile : Int) (sockname : Bytes) : OwnInv (init ram nfile sockname) where
  base := base_init ram nfile sockname
  updating := by intro fd j n h; cases h
  held := by intro fd n h; cases h

/-- The condition on READ N, at the program counter of the moving worker. -/
theorem readsClosed_work {s : Sys} {fd : Nat} {j : Job} (hj : s.job fd = some j)
    (hg : readsClosed s (.work fd) = true) :
    ∀ ch k n f, j.pc = .readNLoop ch k (some n) → 0 < k → s.store.files n = some f →
      f.modified ≠ -1 → f.fdClientId = -1 := by
  intro ch k n f hpc hk hf hm
  simp only [readsClosed, Sys.pc, hj, Option.map_some, hpc] at hg
  rw [show s.shared.storage.file n = some f from hf] at hg
  simp only [Bool.or_eq_true, decide_eq_true_eq, beq_iff_eq] at hg
  rcases hg with (h | h) | h
  · omega
  · exact absurd h hm
  · exact h

theorem ownInv_step {s t : Sys} {l : Label} (hi : OwnInv s) (hg : readsClosed s l = true)
    (h : step s l = some t) : OwnInv t := by
  have hbase := base_step hi.base h
  rcases step_cases h with ⟨fd, rfl, hc, rfl⟩ | ⟨fd, op, rfl, hj, hc, rfl⟩ |
      ⟨fd, j, e, rfl, hj, -, -⟩
  · exact ⟨hbase, hi.updating, hi.held⟩
  · refine ⟨hbase, fun fd' j n hj' hn => ?_, hi.held⟩
    rcases job_taken hj' with ⟨rfl, rfl⟩ | ⟨-, hold⟩
    · cases op <;> cases hn
    · exact hi.updating fd' j n hold hn
  · obtain ⟨j, e, hj, rfl, htr⟩ := work_cases h
    have hrq : j.rq.fd = fd := hi.base.fd fd j hj
    have hread := readsClosed_work hj hg
    have hupd : ∀ n, updating j.pc = some n → s.store.Owned n j.rq.fd := by
      intro n hn
      rw [hrq]
      exact hi.updating fd j n hj hn
    have keep := fun {m : NodeId} {v : Nat} (ho : s.store.Owned m v) =>
      owned_trans htr hi.base.fresh hupd hread ho (by omega)
    refine ⟨hbase, fun fd' j₁ n hj₁ hn => ?_, fun fd' n hh => ?_⟩
    · rcases job_after hj₁ with ⟨rfl, pc, hpc, rfl⟩ | ⟨hne, hold⟩
      · rcases updating_trans htr hpc hn with hold | ⟨hst, ho⟩
        · rcases keep (hi.updating fd' j n hj hold) with ho | ⟨-, hev⟩
          · exact ho
          · rw [givenUp_trans htr hev hpc] at hn
            cases hn
        · rw [hst, ← hrq]; exact ho
      · rcases keep (hi.updating fd' j₁ n hold hn) with ho | ⟨hfd, -⟩
        · exact ho
        · exact absurd (by omega) hne
    · rcases holds_event hh with ⟨rq', hev, hfd⟩ | ⟨hold, hkept⟩
      · obtain ⟨rfl, ho⟩ := opened_trans htr
          (fun x hx => hrq ▸ hi.base.newborn fd j x hj hx) hev
        exact hfd ▸ ho
      · rcases keep (hi.held fd' n hold) with ho | ⟨hfd, hev⟩
        · exact ho
        · obtain ⟨hclosed, hdeleted⟩ := hkept j.rq (by omega)
          exact absurd hev (not_or.mpr ⟨hclosed, hdeleted⟩)

theorem ownInv_reach {ram nfile : Int} {sockname : Bytes} {s : Sys}
    (h : Reach step (fun s l => readsClosed s l = true) (init ram nfile sockname) s) : OwnInv s :=
  h.invariant OwnInv (ownInv_init ram nfile sockname) fun _ _ _ hi hg hs => ownInv_step hi hg hs

/-- **Ownership is kept.** In every run in which READ N meets closed files only and
no removal takes a node that is still pointed at, a client that has a file open by
the history is its owner and the file is in the storage, and every step that meets
the condition is defined. -/
theorem ownership_kept {ram nfile : Int} {sockname : Bytes} {s : Sys}
    (h : Reach step (fun s l => readsClosed s l = true ∧ keepsPointers s l)
      (init ram nfile sockname) s) :
    (∀ fd n, holds s.log fd n = true →
      ∃ f, s.shared.storage.file n = some f ∧ f.fdClientId = fd) ∧
    (∀ fd pc, s.pc fd = some pc → keepsPointers s (.work fd) →
      ∃ t, step s (.work fd) = some t) := by
  have hown := ownInv_reach (h.mono fun _ _ hg => hg.1)
  have hptr := ptrInv_reach (h.mono fun _ _ hg => hg.2.1)
  exact ⟨hown.held, fun fd pc hpc hg => hptr.defined hpc hg.2⟩

/-- Client 4 has `/a` open and appends to it while client 5 reads what there is, which
is its own file `/b`, closed before; its next step is defined. -/
theorem ownership_kept_two :
    ∃ s, Reach step (fun s l => readsClosed s l = true ∧ keepsPointers s l) (init 10 3 []) s ∧
      .frame ⟨5, 5, .readNFiles 1⟩ 1 [47, 98] 1 [121] ∈ s.log ∧
      (∃ f, s.shared.storage.file 0 = some f ∧ f.fdClientId = 4) ∧
      ∃ t, step s (.work 5) = some t := by
  obtain ⟨s, hr, hp⟩ := Reach.of_guarded_test step
    (fun s l => among [4, 5] s l && (readsClosed s l && keepsPointersTest [4, 5] s l))
    (init 10 3 [])
    (List.flatten [[.accept 4, .accept 5, .request 4 (.openFile [47, 97] [49]),
        .request 5 (.openFile [47, 98] [49])], works 4 2, works 5 2, works 4 2, works 5 2,
        [.request 5 (.appendToFile [47, 98] [121])], works 5 9,
        [.request 5 (.closeFile [47, 98]), .request 4 (.appendToFile [47, 97] [120])],
        works 4 3, works 5 3, [.request 5 (.readNFiles 1)], works 5 2, works 4 3, works 5 1])
    (fun s => s.log.contains (.frame ⟨5, 5, .readNFiles 1⟩ 1 [47, 98] 1 [121]) &&
      (holds s.log 4 0 && (keepsPointersTest [4, 5] s (.work 5) && (s.pc 5).isSome)))
    (by decide +kernel)
  obtain ⟨hframe, hp⟩ := Bool.and_eq_true_iff.mp hp
  obtain ⟨hholds, hp⟩ := Bool.and_eq_true_iff.mp hp
  obtain ⟨hnext, hworks⟩ := Bool.and_eq_true_iff.mp hp
  obtain ⟨pc, hpc⟩ := Option.isSome_iff_exists.mp hworks
  have honly : Only [4, 5] s := only_of_among (hr.mono fun _ _ hl => (Bool.and_eq_true_iff.mp hl).1)
  have hreach : Reach step (fun s l => readsClosed s l = true ∧ keepsPointers s l)
      (init 10 3 []) s := by
    refine reach_of_test (fun s l hs ht => ?_) hr
    obtain ⟨hreads, hkeeps⟩ := Bool.and_eq_true_iff.mp ht
    exact ⟨hreads, keepsPointers_of_test hs hkeeps⟩
  obtain ⟨hkept, hdefined⟩ := ownership_kept hreach
  exact ⟨s, hreach, List.contains_iff_mem.mp hframe, hkept 4 0 hholds,
    hdefined 5 pc hpc (keepsPointers_of_test honly hnext)⟩

/-- Client 4 has the written file `/a` open when client 5 reads it with
READ N: the file is then closed, and client 4 was never told. -/
theorem readN_takes_ownership :
    ∃ s, Reach step anyStep (init 10 3 []) s ∧ holds s.log 4 0 = true ∧
      ¬ ∃ f, s.shared.storage.file 0 = some f ∧ f.fdClientId = 4 := by
  obtain ⟨s, hr, hp⟩ := Reach.of_run_test step (init 10 3 [])
    (List.flatten [[.accept 4, .accept 5, .request 4 (.openFile [47, 97] [49])],
        works 4 4,
        [.request 4 (.appendToFile [47, 97] [120])], works 4 9,
        [.request 5 (.readNFiles 1)], works 5 3])
    (fun s => holds s.log 4 0 &&
      (s.shared.storage.file 0).map (·.fdClientId) == some (-1)) (by decide +kernel)
  simp only [Bool.and_eq_true, beq_iff_eq] at hp
  refine ⟨s, hr, hp.1, ?_⟩
  intro hx
  obtain ⟨f, hf, ho⟩ := hx
  rw [hf] at hp
  simp only [Option.map_some, Option.some.injEq] at hp
  omega

end FileStorage.System
