import FileStorage.Lib.Run
import FileStorage.Shutdown.Steps
import Mathlib.Algebra.Order.Group.Multiset
import Mathlib.Tactic.Abel

/-!
# What is left in the queue

When `main` has joined all the workers, the requests it has pushed are the
requests the workers have processed, and the queue is empty, *if* every request
was pushed while some worker was still there (`queue_drained`). `main` does not
see to that. It visits the rest of the pass behind a descriptor that has set a
flag, and the workers look at the flag at once.

Two invariants carry the proof. `Conserved`: a pushed request is in the queue,
in the hands of a worker, or processed. `Attended`: if all the workers have
left, the queue is empty, because a worker leaves only behind its test of
`head`, and it holds the mutex from there on.
-/

namespace FileStorage.Shutdown

open FileStorage.Lib FileStorage.Dispatcher

variable {N : Nat} {d : Descriptors} {s t : Sys N} {mv : Move N}

/-- The visit queues a request. -/
def queues (d : Descriptors) (s : State N) : Bool :=
  match s.main with
  | .pass fd tmpset =>
    decide (fd ≤ s.fdMax ∧ fd ∈ tmpset ∧ fd ∉ d.watched) && s.connected fd
  | _ => false

/-- The move is not a push behind the last worker's back. -/
def attended (d : Descriptors) (s : Sys N) : Move N → Bool
  | .main _ _ => !queues d s.disp || decide (∃ w, s.pc w ≠ .left)
  | _ => true

/-! ## The queue at the end -/

/-- A visit that does not queue a request leaves the queue as it is. -/
theorem visit_queue {x y : State N} {fd : Nat} {tmpset : Finset Nat} {accepted : Option Nat}
    {close : Bool} (hown : ∀ fd ∈ d.own, x.connected fd = false) (hm : x.main = .pass fd tmpset)
    (hq : queues d x = false) (h : visit d x fd tmpset accepted close = some y) :
    y.queue = x.queue := by
  cases visited h with
  | request bound ready _ pipe int hup =>
    have hcon : ¬ x.connected fd = true := by
      intro hcon
      have hnot : fd ∉ d.watched := fun hw =>
        Bool.noConfusion ((hown fd (d.own_of_watched hw)).symm.trans hcon)
      simp [queues, hm, bound, ready, hnot, hcon] at hq
    unfold request
    simp only
    split
    · rfl
    · rw [if_neg hcon]
  | _ => rfl

/-- A step that queues nothing leaves the queue as it is. -/
theorem queue_kept {x y : State N} {l : Label N} (hown : ∀ fd ∈ d.own, x.connected fd = false)
    (hl : l.ofMain = true) (hq : queues d x = false) (h : Dispatcher.step d x l = some y) :
    y.queue = x.queue := by
  cases l with
  | select ready =>
    simp only [Dispatcher.step] at h
    split at h
    · rcases select_eq h with ⟨-, rfl⟩ | ⟨-, rfl⟩ | ⟨-, rfl⟩
      · rfl
      · rfl
      · rfl
    · cases h
  | visit accepted close =>
    simp only [Dispatcher.step] at h
    split at h
    · next hm => exact visit_queue hown hm hq h
    · cases h
  | count =>
    simp only [Dispatcher.step] at h
    split at h
    · cases h
      rfl
    · cases h
      rfl
    · cases h
  | _ => cases hl

/-- If everybody has left, nothing is queued. -/
def Attended (s : Sys N) : Prop := s.disp.queue = [] ∨ ∃ w, s.pc w ≠ .left

theorem attended_step (ok : Ok d s) (h : Attended s) (hg : attended d s mv = true)
    (hm : Moved d s mv t) : Attended t := by
  have woken : ∀ W : Finset (Fin N), (∃ w, s.pc w ≠ .left) → ∃ w, (s.wake W).pc w ≠ .left := by
    intro W ⟨w, hw⟩
    refine ⟨w, ?_⟩
    rcases wake_pc s W w with hsame | ⟨-, hwoken⟩
    · rwa [hsame]
    · rw [hwoken]
      exact WaitPc.noConfusion
  -- the worker that has just moved is still there
  have moved : ∀ {w : Fin N} {x : WaitPc}, x ≠ .left → t.pc = Function.update s.pc w x →
      ∃ v, t.pc v ≠ .left := by
    intro w x hx hpc
    refine ⟨w, ?_⟩
    rw [hpc, Function.update_self]
    exact hx
  cases hm with
  | main _ _ _ hq => exact h.imp hq.trans id
  | @push l W disp rq _ hl hd hq =>
    refine .inr (woken W ?_)
    simp only [attended, Bool.or_eq_true, Bool.not_eq_true', decide_eq_true_eq] at hg
    refine hg.resolve_left fun hno => ?_
    have hsame := queue_kept ok.own hl hno hd
    rw [hq] at hsame
    simp at hsame
  | lock => exact .inr (moved WaitPc.noConfusion rfl)
  | pop => exact .inr (moved WaitPc.noConfusion rfl)
  | test _ ht => cases ht <;> exact .inr (moved WaitPc.noConfusion rfl)
  | @leave w _ hpc ht =>
    -- it has found the queue empty, and holds the mutex since
    refine .inl (ok.empty w ?_)
    rw [hpc]
    cases ht <;> rfl
  | wait => exact .inr (moved WaitPc.noConfusion rfl)
  | @count w _ hpc => exact .inr ⟨w, by rw [hpc]; exact WaitPc.noConfusion⟩
  | reinsert => exact .inr (moved WaitPc.noConfusion rfl)
  | close => exact .inr (moved WaitPc.noConfusion rfl)
  | spurious => exact .inr (moved WaitPc.noConfusion rfl)
  | broadcast => exact h.imp id (woken Finset.univ)
  | join => exact h

/-! ## Where the pushed requests are -/

/-- What a worker has popped and not finished. -/
def inHand : Dispatcher.Worker → Multiset Req
  | .idle => 0
  | .serving rq => {rq}
  | .leaving fd _ => {⟨fd, true⟩}
  | .closing fd => {⟨fd, true⟩}

/-- The requests that the workers have in hand. -/
def hands (s : State N) : Multiset Req := ∑ w, inHand (s.workers w)

/-- Every request is queued, in hand or served. -/
def Conserved (s : Sys N) : Prop :=
  (s.pushed : Multiset Req) = s.processed + s.disp.queue + hands s.disp

theorem hands_update {x y : State N} {w : Fin N} {a : Dispatcher.Worker}
    (h : y.workers = Function.update x.workers w a) :
    hands y + inHand (x.workers w) = hands x + inHand a := by
  have ha : a = y.workers w := by rw [h, Function.update_self]
  unfold hands
  rw [ha]
  refine sum_change (f := fun v => inHand (x.workers v)) (g := fun v => inHand (y.workers v))
    (Finset.mem_univ w) fun v _ hv => ?_
  rw [h, Function.update_of_ne hv]

theorem hands_of_workers_eq {x y : State N} (h : y.workers = x.workers) : hands y = hands x := by
  unfold hands
  rw [h]

/-- A worker takes a request from one place to the next. -/
theorem conserved_move {w : Fin N} {a : Dispatcher.Worker} (h : Conserved s)
    (hpushed : t.pushed = s.pushed) (hw : t.disp.workers = Function.update s.disp.workers w a)
    (hmoved : (t.processed : Multiset Req) + t.disp.queue + inHand a
      = s.processed + s.disp.queue + inHand (s.disp.workers w)) : Conserved t := by
  have hhands := hands_update hw
  have hcancel : (t.pushed : Multiset Req) + inHand (s.disp.workers w)
      = t.processed + t.disp.queue + hands t.disp + inHand (s.disp.workers w) := by
    calc (t.pushed : Multiset Req) + inHand (s.disp.workers w)
        = s.processed + s.disp.queue + inHand (s.disp.workers w) + hands s.disp := by
          rw [hpushed, h]
          abel
      _ = t.processed + t.disp.queue + (hands s.disp + inHand a) := by
          rw [← hmoved]
          abel
      _ = t.processed + t.disp.queue + hands t.disp + inHand (s.disp.workers w) := by
          rw [← hhands]
          abel
  exact add_right_cancel hcancel

/-- No step loses a request or serves one twice. -/
theorem conserved_step (h : Conserved s) (hm : Moved d s mv t) : Conserved t := by
  cases hm with
  | @main _ _ disp _ hl hd hq =>
    show (s.pushed : Multiset Req) = s.processed + disp.queue + hands disp
    rw [hq, hands_of_workers_eq (main_cases hl hd).workers_eq]
    exact h
  | @push _ _ disp rq _ hl hd hq =>
    show ((s.pushed ++ [rq] : List Req) : Multiset Req) = s.processed + disp.queue + hands disp
    rw [hq, hands_of_workers_eq (main_cases hl hd).workers_eq, ← Multiset.coe_add, h,
      ← Multiset.coe_add]
    abel
  | pop _ hd =>
    obtain ⟨rq, queue, hw, hq, rfl⟩ := pop_cases hd
    refine conserved_move h rfl rfl ?_
    rw [hw, hq, ← Multiset.cons_coe, ← Multiset.singleton_add]
    show (s.processed : Multiset Req) + queue + {rq} = s.processed + ({rq} + queue) + 0
    abel
  | count _ hd =>
    rcases leave_cases hd with ⟨fd, hw, rfl⟩ | ⟨fd, n, hw, rfl⟩
    · refine conserved_move h rfl rfl ?_
      rw [hw]
      rfl
    · refine conserved_move h rfl rfl ?_
      rw [hw]
      rfl
  | @reinsert _ _ fd _ hw hd =>
    obtain ⟨fd', -, rfl⟩ := reinsert_cases hd
    refine conserved_move h rfl rfl ?_
    rw [hw]
    show ((s.processed ++ [(⟨fd, false⟩ : Req)] : List Req) : Multiset Req) + s.disp.queue + 0
      = s.processed + s.disp.queue + {⟨fd, false⟩}
    rw [← Multiset.coe_add, Multiset.coe_singleton]
    abel
  | @close _ _ fd _ hw hd =>
    obtain ⟨fd', -, rfl⟩ := close_cases hd
    refine conserved_move h rfl rfl ?_
    rw [hw]
    show ((s.processed ++ [(⟨fd, true⟩ : Req)] : List Req) : Multiset Req) + s.disp.queue + 0
      = s.processed + s.disp.queue + {⟨fd, true⟩}
    rw [← Multiset.coe_add, Multiset.coe_singleton]
    abel
  | _ => exact h

theorem hands_idle {x : State N} (h : ∀ w, x.workers w = .idle) : hands x = 0 := by
  unfold hands
  exact Finset.sum_eq_zero fun w _ => by rw [h w]; rfl

/-- There is no request at first. -/
theorem conserved_init (d : Descriptors) (N : Nat) : Conserved (init d N) := by
  have hidle : hands (Dispatcher.init d N) = 0 := hands_idle fun _ => rfl
  show (0 : Multiset Req) = 0 + 0 + hands (Dispatcher.init d N)
  rw [hidle]
  rfl

/-- **Nothing is left behind**, in every run that queues a request only while
some worker has not left: when all the workers are joined, the queue is empty
and the pushed requests are the processed ones. -/
theorem queue_drained (d : Descriptors) (N : Nat) (s : Sys N)
    (h : Reach (step d) (fun s mv => attended d s mv = true) (init d N) s)
    (hjoined : s.phase = .joining N) :
    s.disp.main = .stopped ∧ (∀ w, s.pc w = .left) ∧ s.disp.queue = [] ∧
      s.processed.Perm s.pushed := by
  have hall : Ok d s ∧ Attended s ∧ Conserved s := by
    refine h.invariant (fun s => Ok d s ∧ Attended s ∧ Conserved s)
      ⟨ok_init d N, .inl rfl, conserved_init d N⟩ ?_
    intro s mv t hi hg hs
    have hm := moved_of_step hs
    exact ⟨ok_step hi.1 hs, attended_step hi.1 hi.2.1 hg hm, conserved_step hi.2.2 hm⟩
  obtain ⟨ok, hattended, hconserved⟩ := hall
  have hleft : ∀ w, s.pc w = .left := fun w => ok.joined N hjoined w w.isLt
  have hqueue : s.disp.queue = [] := by
    refine hattended.resolve_right fun hsome => ?_
    obtain ⟨w, hw⟩ := hsome
    exact hw (hleft w)
  have hidle : ∀ w, s.disp.workers w = .idle :=
    fun w => ok.idle w (by rw [hleft w]; exact WaitPc.noConfusion)
  refine ⟨ok.stopped (by rw [hjoined]; exact Phase.noConfusion), hleft, hqueue, ?_⟩
  unfold Conserved at hconserved
  rw [hqueue, hands_idle hidle, add_zero] at hconserved
  exact Multiset.coe_eq_coe.mp (by rw [hconserved]; exact (add_zero _).symm)

/-- A client connects and its request is served before SIGINT comes. -/
theorem queue_drained_served :
    ∃ s : Sys 1, Reach (step atStart) (fun s mv => attended atStart s mv = true)
        (init atStart 1) s ∧
      s.phase = .joining 1 ∧ s.pushed = [⟨11, false⟩] ∧ s.disp.queue = [] ∧
      s.processed.Perm s.pushed := by
  obtain ⟨s, hr, hp⟩ := Reach.of_guarded_test (step atStart) (attended atStart) (init atStart 1)
    (mainConnects 11 4 ++ mainPass {11} false 13 ++ List.replicate 3 (.worker 0) ++ interrupted ++
      [.broadcast] ++ List.replicate 3 (.worker 0) ++ [.join])
    (fun s => s.phase == .joining 1 && s.pushed == [⟨11, false⟩]) (by decide +kernel)
  simp only [Bool.and_eq_true, beq_iff_eq] at hp
  have hdone := queue_drained atStart 1 s hr hp.1
  exact ⟨s, hr, hp.1, hp.2, hdone.2.2⟩

/-- SIGINT and a request are ready in the same pass. The only worker sees the
flag and an empty queue, and leaves; then `main` visits the client, pushes its
request, and leaves its loop. -/
theorem request_left_behind :
    ∃ s : Sys 1, Reach (step atStart) anyStep (init atStart 1) s ∧ s.phase = .joining 1 ∧
      s.pushed = [⟨11, false⟩] ∧ s.processed = [] ∧ s.disp.queue = [⟨11, false⟩] := by
  obtain ⟨s, hr, hp⟩ := Reach.of_run_test (step atStart) (init atStart 1)
    (mainConnects 11 4 ++ mainPass {6, 11} false 7 ++ List.replicate 3 (.worker 0) ++
      mainVisits none false 6 ++ [.main (.select ∅) ∅, .broadcast, .join])
    (fun s => s.phase == .joining 1 && (s.pushed == [⟨11, false⟩] && (s.processed == [] &&
      s.disp.queue == [⟨11, false⟩]))) (by decide +kernel)
  simp only [Bool.and_eq_true, beq_iff_eq] at hp
  exact ⟨s, hr, hp.1, hp.2.1, hp.2.2.1, hp.2.2.2⟩

end FileStorage.Shutdown
