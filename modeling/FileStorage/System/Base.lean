import FileStorage.System.Model
import FileStorage.Worker.Cases
import FileStorage.Storage.Total

/-!
# What holds in every run

The bookkeeping invariant `Base` of the system: jobs serve their own connected
descriptor, request identities are handed out in order, node identities are
fresh, the node an OPEN is about to insert is the one `createFileNode` made for
it, the counters say what is stored, and a file is as long as its content. It
needs no condition on the run.

`work_cases` is the form in which the other modules see a worker's step: an
inversion of the system step composed with the inversion of the worker step.
-/

namespace FileStorage.System

open FileStorage.Lib FileStorage.Storage FileStorage.Worker

/-- The files and counters of the system. -/
def Sys.store (s : Sys) : Store := s.shared.storage.store

structure Base (s : Sys) : Prop where
  fd : ∀ fd j, s.job fd = some j → j.rq.fd = fd
  conn : ∀ fd j, s.job fd = some j → s.connected fd = true
  id : ∀ fd j, s.job fd = some j → j.rq.id < s.nextId
  fresh : s.store.Fresh
  balanced : s.store.Balanced
  sized : s.store.Sized
  newborn : ∀ fd j x, s.job fd = some j → creating j.pc = some x →
    ∃ p, x = createFileNode p fd

theorem base_init (ram nfile : Int) (sockname : Bytes) : Base (init ram nfile sockname) where
  fd := by intro fd j h; cases h
  conn := by intro fd j h; cases h
  id := by intro fd j h; cases h
  fresh := by intro n f h; cases h
  balanced := Store.balanced_createStorage ram nfile
  sized := by intro n f h; cases h
  newborn := by intro fd j x h; cases h

section

variable {rq : Request} {A : Bytes → Prop} {pc : Pc} {pc' : Option Pc} {st st' : Store}
variable {ev : Option Event}

/-- The node under insertion does not change on the way, and starts as
`createFileNode` makes it. -/
theorem creating_trans (h : Trans rq A pc st pc' st' ev) {q : Pc} {x : Node}
    (hq : pc' = some q) (hx : creating q = some x) :
    creating pc = some x ∨ ∃ p, x = createFileNode p rq.fd := by
  cases h <;> cases hq <;> simp_all [creating]
  exact ⟨_, hx.symm⟩

/-- Only CLOSE CONNECTION ends a connection, and it ends the request. -/
theorem disconnected_trans (h : Trans rq A pc st pc' st' ev) {rq' : Request} {a : Answer}
    (hev : ev = some (.disconnected rq' a)) : pc' = none ∧ rq' = rq := by
  cases h <;> cases hev
  exact ⟨rfl, rfl⟩

/-- An OPEN that takes effect leaves the requester as the owner. -/
theorem opened_trans (h : Trans rq A pc st pc' st' ev)
    (hnew : ∀ x, creating pc = some x → ∃ p, x = createFileNode p rq.fd)
    {rq' : Request} {n : NodeId} (hev : ev = some (.opened rq' n)) : rq' = rq ∧ st'.Owned n rq.fd := by
  cases h with
  | openTake hf hc =>
    cases hev
    exact ⟨rfl, Store.owned_setFd_self hf⟩
  | @insCommit x rm s =>
    cases hev
    obtain ⟨p, hp⟩ := hnew x rfl
    exact ⟨rfl, x.toFile, Store.files_insert_self, by rw [hp]; rfl⟩
  | _ => cases hev

end

/-- A worker's step, inverted down to the files. -/
theorem work_cases {s t : Sys} {fd : Nat} (h : step s (.work fd) = some t) :
    ∃ j e, s.job fd = some j ∧ t = s.after fd j e ∧
      Trans j.rq (Absent s.shared.storage) j.pc s.store e.pc t.store e.event := by
  rcases step_cases h with ⟨fd', hl, -⟩ | ⟨fd', op, hl, -⟩ | ⟨fd', j, e, hl, hj, he, rfl⟩
  · cases hl
  · cases hl
  · cases hl
    exact ⟨j, e, hj, rfl, wstep_trans he⟩

theorem base_step {s t : Sys} {l : Label} (hb : Base s) (h : step s l = some t) : Base t := by
  rcases step_cases h with ⟨fd, rfl, hc, rfl⟩ | ⟨fd, op, rfl, hj, hc, rfl⟩ |
      ⟨fd, j, e, rfl, hj, -, -⟩
  · refine ⟨hb.fd, fun fd' j hj => ?_, hb.id, hb.fresh, hb.balanced, hb.sized, hb.newborn⟩
    show Function.update s.connected fd true fd' = true
    by_cases hfd : fd' = fd
    · rw [hfd, Function.update_self]
    · rw [Function.update_of_ne hfd]; exact hb.conn fd' j hj
  · refine ⟨fun fd' j hj' => ?_, fun fd' j hj' => ?_, fun fd' j hj' => ?_, hb.fresh,
      hb.balanced, hb.sized, fun fd' j x hj' hx => ?_⟩ <;>
      rcases job_taken hj' with ⟨rfl, rfl⟩ | ⟨-, hold⟩
    · rfl
    · exact hb.fd fd' j hold
    · exact hc
    · exact hb.conn fd' j hold
    · exact Nat.lt_succ_self _
    · exact Nat.lt_succ_of_lt (hb.id fd' j hold)
    · cases op <;> cases hx
    · exact hb.newborn fd' j x hold hx
  · obtain ⟨j', e', hj', rfl, htr⟩ := work_cases h
    -- the node under creation is empty
    have hempty : ∀ x, creating j'.pc = some x → x.fileSz = 0 ∧ x.contentFile = [] := by
      intro x hx
      obtain ⟨p, rfl⟩ := hb.newborn fd j' x hj' hx
      exact ⟨rfl, rfl⟩
    refine ⟨fun fd' j₁ hj₁ => ?_, fun fd' j₁ hj₁ => ?_, fun fd' j₁ hj₁ => ?_,
      fresh_trans htr hb.fresh,
      balanced_trans htr hb.fresh hb.balanced fun x hx => (hempty x hx).1,
      sized_trans htr hb.sized fun x hx => by rw [(hempty x hx).1, (hempty x hx).2]; rfl,
      fun fd' j₁ x hj₁ hx => ?_⟩ <;>
      rcases job_after hj₁ with ⟨rfl, pc, hpc, rfl⟩ | ⟨hne, hold⟩
    · exact hb.fd fd' j' hj'
    · exact hb.fd fd' j₁ hold
    · -- a worker that goes on has not closed the connection
      have hc := hb.conn fd' j' hj'
      show connectedAfter s.connected fd' e'.event fd' = true
      unfold connectedAfter
      split
      · next hev =>
        obtain ⟨hnone, -⟩ := disconnected_trans htr hev
        rw [hpc] at hnone
        cases hnone
      · exact hc
    · have hc := hb.conn fd' j₁ hold
      show connectedAfter s.connected fd e'.event fd' = true
      unfold connectedAfter
      split
      · rw [if_neg hne]; exact hc
      · exact hc
    · exact hb.id fd' j' hj'
    · exact hb.id fd' j₁ hold
    · rcases creating_trans htr hpc hx with hold | ⟨p, hp⟩
      · exact hb.newborn fd' j' x hj' hold
      · exact ⟨p, by rw [hp, hb.fd fd' j' hj']⟩
    · exact hb.newborn fd' j₁ x hold hx

/-- Files are marked as never written or as written in every run. -/
theorem marked_reach {G : Sys → Label → Prop} {ram nfile : Int} {sockname : Bytes} {s : Sys}
    (h : Reach step G (init ram nfile sockname) s) : Marked s.store := by
  have hall : Base s ∧ Marked s.store := by
    refine h.invariant (fun s => Base s ∧ Marked s.store)
      ⟨base_init ram nfile sockname, (by intro n f hf; cases hf)⟩ ?_
    intro s l t hi hg hs
    refine ⟨base_step hi.1 hs, ?_⟩
    rcases step_cases hs with ⟨fd, rfl, -, rfl⟩ | ⟨fd, op, rfl, -, -, rfl⟩ |
        ⟨fd, j, e, rfl, hj, -, -⟩
    · exact hi.2
    · exact hi.2
    · obtain ⟨j, e, hj, rfl, htr⟩ := work_cases hs
      refine marked_trans htr hi.2 fun x hx => ?_
      obtain ⟨p, rfl⟩ := hi.1.newborn fd j x hj hx
      rfl
  exact hall.2

end FileStorage.System
