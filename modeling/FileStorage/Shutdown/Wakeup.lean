import FileStorage.Shutdown.Steps

/-!
# The broadcast

`main` writes its flags and broadcasts without the queue's mutex. A worker that
has tested the flags before they were set, and has not reached
`pthread_cond_wait` when the broadcast comes, blocks behind it and nobody wakes
it up again. Such a worker is one that `waits`: none of its remaining tests will
make it leave.

If nobody waits at the moment of the broadcast, nobody blocks any more
(`no_lost_wakeup`). The reason for the shutdown stays true from there on
(`Orderly.ended`), so a worker that starts its tests over meets it at the first
or at the second test. It stays true because `nclient` does not move any more,
and for that no update of it may have been lost before: one too few, and a worker
makes it −1 behind the broadcast (`woken_in_vain`).
-/

namespace FileStorage.Shutdown

open FileStorage.Lib FileStorage.Dispatcher

variable {N : Nat} {d : Descriptors} {s t : Sys N} {mv : Move N}

/-- From this place the worker's next tests lead into `pthread_cond_wait`. -/
def WaitPc.waits (disp : State N) : WaitPc → Bool
  | .nclient => !(disp.sigHUP && disp.nclient == 0)
  | .sighup => !disp.sigHUP
  | .wait => true
  | _ => false

/-- The move is not a broadcast that a worker on its way to
`pthread_cond_wait` will miss. -/
def heard (s : Sys N) : Move N → Bool
  | .broadcast => decide (∀ w, (s.pc w).waits s.disp = false)
  | _ => true

/-- Nobody is blocked, and nobody is on the way there. -/
def Awake (s : Sys N) : Prop :=
  ∀ w, s.pc w ≠ .blocked ∧ (s.pc w).waits s.disp = false

theorem waits_congr {x y : State N} (hhup : y.sigHUP = x.sigHUP) (hn : y.nclient = x.nclient)
    (pc : WaitPc) : pc.waits y = pc.waits x := by
  cases pc with
  | nclient => simp only [WaitPc.waits, hhup, hn]
  | sighup => simp only [WaitPc.waits, hhup]
  | _ => rfl

/-- A worker goes to a place that is not on the way. -/
theorem awake_update {w : Fin N} {x : WaitPc} (h : Awake s)
    (hpc : t.pc = Function.update s.pc w x) (hhup : t.disp.sigHUP = s.disp.sigHUP)
    (hn : t.disp.nclient = s.disp.nclient) (hblocked : x ≠ .blocked)
    (hx : x.waits s.disp = false) : Awake t := by
  intro v
  rw [hpc, waits_congr hhup hn]
  by_cases hv : v = w
  · subst hv
    rw [Function.update_self]
    exact ⟨hblocked, hx⟩
  · rw [Function.update_of_ne hv]
    exact h v

/-- A test leads on towards leaving, because the server has ended. -/
theorem waits_of_test {pc pc' : WaitPc} (he : Ended s.disp) (ht : Test s.disp pc pc')
    (h : pc.waits s.disp = false) : pc' ≠ .blocked ∧ pc'.waits s.disp = false := by
  cases ht with
  | empty => exact ⟨WaitPc.noConfusion, rfl⟩
  | running hint =>
    refine ⟨WaitPc.noConfusion, ?_⟩
    rcases he with hyes | ⟨hhup, hzero⟩
    · rw [hint] at hyes
      cases hyes
    · simp [WaitPc.waits, hhup, hzero]
  | alone hzero =>
    refine ⟨WaitPc.noConfusion, ?_⟩
    simpa [WaitPc.waits, hzero] using h
  | clients hne => simp [WaitPc.waits, hne] at h
  | noHup hhup => simp [WaitPc.waits, hhup] at h

/-- Behind the broadcast nobody falls asleep. -/
theorem awake_step (ok : Ok d s) (ho : Orderly d s.disp) (hphase : s.phase ≠ .loop) (h : Awake s)
    (hm : Moved d s mv t) : Awake t := by
  cases hm with
  | main loop => exact absurd loop hphase
  | push loop => exact absurd loop hphase
  | broadcast loop => exact absurd loop hphase
  | lock => exact awake_update h rfl rfl rfl WaitPc.noConfusion rfl
  | pop _ hd =>
    obtain ⟨rq, queue, -, -, rfl⟩ := pop_cases hd
    exact awake_update h rfl rfl rfl WaitPc.noConfusion rfl
  | @test w _ _ hpc ht =>
    obtain ⟨hblocked, hwaits⟩ :=
      waits_of_test (ho.ended (ok.stopped hphase)) ht (hpc ▸ (h w).2)
    exact awake_update h rfl rfl rfl hblocked hwaits
  | leave => exact awake_update h rfl rfl rfl WaitPc.noConfusion rfl
  | @wait w hpc =>
    have hwaits := (h w).2
    rw [hpc] at hwaits
    cases hwaits
  | @count w _ hpc hd =>
    rcases leave_cases hd with ⟨fd, -, rfl⟩ | ⟨fd, n, hw, rfl⟩
    · exact h
    · -- a client in hand is counted, so nobody has found `nclient` at zero
      have hmain : s.disp.main.counting = false := by
        rw [ok.stopped hphase]
        rfl
      have hheld : (s.disp.workers w).fd? = some fd := by rw [hw]; rfl
      have hpos := in_hand_pos ho.inv ho.counted hmain hheld (by rw [hw]; exact Worker.noConfusion)
      intro v
      refine ⟨(h v).1, ?_⟩
      have hwaits := (h v).2
      show (s.pc v).waits _ = false
      cases hv : s.pc v with
      | nclient =>
        rw [hv] at hwaits
        simp only [WaitPc.waits, Bool.not_eq_false', Bool.and_eq_true, beq_iff_eq] at hwaits
        omega
      | sighup => rwa [hv] at hwaits
      | wait => rwa [hv] at hwaits
      | _ => rfl
  | reinsert _ _ hd =>
    obtain ⟨fd, -, rfl⟩ := reinsert_cases hd
    exact awake_update h rfl rfl rfl WaitPc.noConfusion rfl
  | close _ _ hd =>
    obtain ⟨fd, -, rfl⟩ := close_cases hd
    exact awake_update h rfl rfl rfl WaitPc.noConfusion rfl
  | spurious hpc => exact absurd hpc (h _).1
  | join => exact h

/-- The broadcast wakes everybody who is blocked. -/
theorem awake_broadcast (hg : heard s .broadcast = true) :
    Awake { s.wake Finset.univ with phase := .joining 0 } := by
  have hnone : ∀ w, (s.pc w).waits s.disp = false := of_decide_eq_true hg
  intro w
  refine ⟨?_, ?_⟩
  · show (if w ∈ Finset.univ ∧ s.pc w = .blocked then WaitPc.woken else s.pc w) ≠ .blocked
    simp only [Finset.mem_univ, true_and]
    split
    · exact WaitPc.noConfusion
    · next hne => exact hne
  · show ((s.wake Finset.univ).pc w).waits s.disp = false
    rw [wake_same (WaitPc.waits s.disp) rfl]
    exact hnone w

/-- The move meets the three conditions. -/
def prompt (d : Descriptors) (s : Sys N) (mv : Move N) : Bool :=
  heard s mv && fits d s mv && undisturbed s mv

/-- **No worker sleeps through the shutdown**, in every run whose broadcast
finds no worker on its way to `pthread_cond_wait`, that loses no update of `nclient`,
and whose calls of `accept` succeed with a number below `FD_SETSIZE`. -/
theorem no_lost_wakeup (d : Descriptors) (N : Nat) (s : Sys N)
    (h : Reach (step d) (fun s mv => prompt d s mv = true) (init d N) s) (hphase : s.phase ≠ .loop)
    (w : Fin N) : s.pc w ≠ .blocked := by
  have hall : Ok d s ∧ Orderly d s.disp ∧ (s.phase ≠ .loop → Awake s) := by
    refine h.invariant (fun s => Ok d s ∧ Orderly d s.disp ∧ (s.phase ≠ .loop → Awake s))
      ⟨ok_init d N, orderly_init d N, fun hne => absurd rfl hne⟩ ?_
    intro s mv t hi hg hs
    simp only [prompt, Bool.and_eq_true] at hg
    obtain ⟨⟨hheard, hfits⟩, hundisturbed⟩ := hg
    have hm := moved_of_step hs
    refine ⟨ok_step hi.1 hs, orderly_moved hi.2.1 hfits hundisturbed hm, fun hne => ?_⟩
    by_cases hloop : s.phase = .loop
    · cases hm with
      | broadcast => exact awake_broadcast hheard
      | join _ hjoin => exact absurd (hjoin.symm.trans hloop) Phase.noConfusion
      | _ => exact absurd hloop hne
    · exact awake_step hi.1 hi.2.1 hloop (hi.2.2 hloop) hm
  exact (hall.2.2 hphase w).1

/-- The worker blocks before SIGINT comes, and the broadcast wakes it. -/
theorem no_lost_wakeup_blocked :
    ∃ s : Sys 1, Reach (step atStart) (fun s mv => prompt atStart s mv = true) (init atStart 1) s ∧
      s.phase = .joining 0 ∧ s.pc 0 ≠ .blocked := by
  obtain ⟨s, hr, hp⟩ := Reach.of_guarded_test (step atStart) (prompt atStart) (init atStart 1)
    (List.replicate 6 (.worker 0) ++ interrupted ++ [.broadcast])
    (fun s => s.phase == .joining 0) (by decide +kernel)
  rw [beq_iff_eq] at hp
  exact ⟨s, hr, hp, no_lost_wakeup atStart 1 s hr (by rw [hp]; exact Phase.noConfusion) 0⟩

/-- SIGINT and the broadcast come while the worker is between its test of
`sigINT_sigQUIT` and `pthread_cond_wait`. It blocks on the empty queue with
nothing left to wake it up, and `main` waits for it. -/
theorem broadcast_missed :
    ∃ s : Sys 1, Reach (step atStart) anyStep (init atStart 1) s ∧ s.phase = .joining 0 ∧
      s.pc 0 = .blocked ∧ s.disp.queue = [] ∧
      ∀ mv t, step atStart s mv = some t → mv = .spurious 0 := by
  obtain ⟨s, hr, hp⟩ := Reach.of_run_test (step atStart) (init atStart 1)
    (List.replicate 3 (.worker 0) ++ interrupted ++ [.broadcast, .worker 0, .worker 0, .worker 0])
    (fun s => s.phase == .joining 0 && (s.pc 0 == .blocked && s.disp.queue.isEmpty))
    (by decide +kernel)
  simp only [Bool.and_eq_true, beq_iff_eq, List.isEmpty_iff] at hp
  obtain ⟨hphase, hpc, hqueue⟩ := hp
  refine ⟨s, hr, hphase, hpc, hqueue, fun mv t h => ?_⟩
  cases mv with
  | main l W => simp [step, hphase] at h
  | worker w =>
    rw [Subsingleton.elim w 0] at h
    simp [step, workerStep, hpc] at h
  | spurious w => rw [Subsingleton.elim w 0]
  | broadcast => simp [step, hphase] at h
  | join => simp [step, hphase, hpc] at h

/-- A client is counted in while the worker counts another one out, and the worker's store
takes that back. The second client asks to close its connection; `main` reads that, then
SIGHUP, and stops with `nclient` at 0. Nobody waits at the broadcast, but the worker makes
`nclient` −1 after it, and blocks. -/
theorem woken_in_vain :
    ∃ s : Sys 1,
      Reach (step atStart) (fun s mv => (heard s mv && fits atStart s mv) = true)
        (init atStart 1) s ∧
      s.phase = .joining 0 ∧ s.pc 0 = .blocked ∧ s.disp.queue = [] ∧ s.disp.nclient = -1 := by
  obtain ⟨s, hr, hp⟩ := Reach.of_guarded_test (step atStart)
    (fun s mv => heard s mv && fits atStart s mv) (init atStart 1)
    (mainConnects 11 4 ++ mainPass {11} true 13 ++ List.replicate 3 (.worker 0) ++
      mainConnects 12 5 ++ List.replicate 2 (.worker 0) ++ mainPass {12} true 14 ++
      mainPass {4} true 11 ++ [.main (.select ∅) ∅, .broadcast] ++ List.replicate 10 (.worker 0))
    (fun s => s.phase == .joining 0 && (s.pc 0 == .blocked && (s.disp.queue.isEmpty &&
      s.disp.nclient == -1))) (by decide +kernel)
  simp only [Bool.and_eq_true, beq_iff_eq, List.isEmpty_iff] at hp
  exact ⟨s, hr, hp.1, hp.2.1, hp.2.2.1, hp.2.2.2⟩

end FileStorage.Shutdown
