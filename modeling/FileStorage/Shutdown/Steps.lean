import FileStorage.Shutdown.Model

/-!
# The steps of the whole server

`Moved` says once what each move does, with the tests it has made; every
invariant of the shutdown is a case analysis of it. The steps of the dispatcher
are among them (`disp_step`), so what holds of the dispatcher in every run holds
here (`orderly_moved`).

`Ok` is what all of the rest needs: the mutex has one holder, a worker behind
its test of `head` has an empty queue as long as it holds the mutex, and the
workers that `main` has joined have left. It holds in every run, whatever `accept`
returns and whatever happens to `nclient`.
-/

namespace FileStorage.Shutdown

open FileStorage.Lib FileStorage.Dispatcher

variable {N : Nat} {d : Descriptors} {s t : Sys N} {mv : Move N} {w v : Fin N}

/-- The worker holds the mutex. -/
def WaitPc.holds : WaitPc → Bool
  | .head | .sigint | .nclient | .sighup | .wait => true
  | _ => false

/-- The worker has found the queue empty. -/
def WaitPc.tested : WaitPc → Bool
  | .sigint | .nclient | .sighup | .wait => true
  | _ => false

/-- The tests of the wait loop that neither leave nor block. -/
inductive Test (s : State N) : WaitPc → WaitPc → Prop
  | empty (h : s.queue = []) : Test s .head .sigint
  | running (h : s.sigINT = false) : Test s .sigint .nclient
  | alone (h : s.nclient = 0) : Test s .nclient .sighup
  | clients (h : s.nclient ≠ 0) : Test s .nclient .wait
  | noHup (h : s.sigHUP = false) : Test s .sighup .wait

/-- The tests that end a worker. -/
inductive Leaves (s : State N) : WaitPc → Prop
  | sigint (h : s.sigINT = true) : Leaves s .sigint
  | sighup (h : s.sigHUP = true) : Leaves s .sighup

/-- What a move does. -/
inductive Moved (d : Descriptors) (s : Sys N) : Move N → Sys N → Prop
  | main {l : Label N} {W : Finset (Fin N)} {disp : State N}
      (loop : s.phase = .loop) (ofMain : l.ofMain = true)
      (hd : Dispatcher.step d s.disp l = some disp) (queue : disp.queue = s.disp.queue) :
      Moved d s (.main l W) { s with disp := disp }
  | push {l : Label N} {W : Finset (Fin N)} {disp : State N} {rq : Req}
      (loop : s.phase = .loop) (ofMain : l.ofMain = true)
      (hd : Dispatcher.step d s.disp l = some disp) (queue : disp.queue = s.disp.queue ++ [rq])
      (free : s.lock = none) :
      Moved d s (.main l W) { s.wake W with disp := disp, pushed := s.pushed ++ [rq] }
  | lock {w : Fin N} (pc : s.pc w = .top ∨ s.pc w = .woken) (free : s.lock = none) :
      Moved d s (.worker w) { s.goto w .head with lock := some w }
  | pop {w : Fin N} {disp : State N} (pc : s.pc w = .head)
      (hd : Dispatcher.step d s.disp (.pop w) = some disp) :
      Moved d s (.worker w) { (s.goto w .busy).unlock with disp := disp }
  | test {w : Fin N} {pc pc' : WaitPc} (pc_eq : s.pc w = pc) (ht : Test s.disp pc pc') :
      Moved d s (.worker w) (s.goto w pc')
  | leave {w : Fin N} {pc : WaitPc} (pc_eq : s.pc w = pc) (ht : Leaves s.disp pc) :
      Moved d s (.worker w) (s.goto w .left).unlock
  | wait {w : Fin N} (pc : s.pc w = .wait) : Moved d s (.worker w) (s.goto w .blocked).unlock
  | count {w : Fin N} {disp : State N} (pc : s.pc w = .busy)
      (hd : Dispatcher.step d s.disp (.leave w) = some disp) :
      Moved d s (.worker w) { s with disp := disp }
  | reinsert {w : Fin N} {disp : State N} {fd : Nat} (pc : s.pc w = .busy)
      (hw : s.disp.workers w = .serving ⟨fd, false⟩)
      (hd : Dispatcher.step d s.disp (.reinsert w) = some disp) :
      Moved d s (.worker w)
        { s.goto w .top with disp := disp, processed := s.processed ++ [⟨fd, false⟩] }
  | close {w : Fin N} {disp : State N} {fd : Nat} (pc : s.pc w = .busy)
      (hw : s.disp.workers w = .closing fd)
      (hd : Dispatcher.step d s.disp (.close w) = some disp) :
      Moved d s (.worker w)
        { s.goto w .top with disp := disp, processed := s.processed ++ [⟨fd, true⟩] }
  | spurious {w : Fin N} (pc : s.pc w = .blocked) : Moved d s (.spurious w) (s.goto w .woken)
  | broadcast (loop : s.phase = .loop) (stopped : s.disp.main = .stopped) :
      Moved d s .broadcast { s.wake Finset.univ with phase := .joining 0 }
  | join {ii : Nat} (h : ii < N) (phase : s.phase = .joining ii) (left : s.pc ⟨ii, h⟩ = .left) :
      Moved d s .join { s with phase := .joining (ii + 1) }

/-- The step of main, by what it does. -/
theorem moved_main {l : Label N} {W : Finset (Fin N)} (hloop : s.phase = .loop)
    (h : mainStep d s l W = some t) : Moved d s (.main l W) t := by
  unfold mainStep at h
  split at h
  · next hl =>
    split at h
    · cases h
    · next disp hd =>
      -- the queue is what it was, or has one more request
      have hqueue : disp.queue = s.disp.queue ∨ ∃ rq, disp.queue = s.disp.queue ++ [rq] :=
        (main_cases hl hd).queue_cases
      rcases hqueue with hq | ⟨rq, hq⟩
      · rw [hq, List.drop_length] at h
        cases h
        exact .main hloop hl hd hq
      · rw [hq, List.drop_left] at h
        simp only at h
        split at h
        · next hfree =>
          cases h
          exact .push hloop hl hd hq hfree.1
        · cases h
  · cases h

/-- The step of a worker with a request in hand. -/
theorem moved_busy (hpc : s.pc w = .busy) (h : busyStep d s w = some t) :
    Moved d s (.worker w) t := by
  unfold busyStep at h
  split at h
  · cases h
  · next hw =>
    obtain ⟨disp, hd, rfl⟩ := Option.map_eq_some_iff.mp h
    exact .reinsert hpc hw hd
  · obtain ⟨disp, hd, rfl⟩ := Option.map_eq_some_iff.mp h
    exact .count hpc hd
  · obtain ⟨disp, hd, rfl⟩ := Option.map_eq_some_iff.mp h
    exact .count hpc hd
  · next hw =>
    obtain ⟨disp, hd, rfl⟩ := Option.map_eq_some_iff.mp h
    exact .close hpc hw hd

/-- The step of a worker, by what it does. -/
theorem moved_worker (h : workerStep d s w = some t) : Moved d s (.worker w) t := by
  unfold workerStep at h
  split at h
  · cases h
  cases hpc : s.pc w with
  | top =>
    simp only [hpc] at h
    split at h
    · next hfree =>
      cases h
      exact .lock (.inl hpc) hfree
    · cases h
  | woken =>
    simp only [hpc] at h
    split at h
    · next hfree =>
      cases h
      exact .lock (.inr hpc) hfree
    · cases h
  | head =>
    simp only [hpc] at h
    split at h
    · next hempty =>
      cases h
      exact .test hpc (.empty hempty)
    · obtain ⟨disp, hd, rfl⟩ := Option.map_eq_some_iff.mp h
      exact .pop hpc hd
  | sigint =>
    simp only [hpc, Option.some.injEq] at h
    split at h
    · next hint =>
      subst h
      exact .leave hpc (.sigint hint)
    · next hint =>
      subst h
      exact .test hpc (.running (by simpa using hint))
  | nclient =>
    simp only [hpc, Option.some.injEq] at h
    split at h
    · next hzero =>
      subst h
      exact .test hpc (.alone hzero)
    · next hpos =>
      subst h
      exact .test hpc (.clients hpos)
  | sighup =>
    simp only [hpc, Option.some.injEq] at h
    split at h
    · next hhup =>
      subst h
      exact .leave hpc (.sighup hhup)
    · next hhup =>
      subst h
      exact .test hpc (.noHup (by simpa using hhup))
  | wait =>
    simp only [hpc, Option.some.injEq] at h
    subst h
    exact .wait hpc
  | busy =>
    simp only [hpc] at h
    exact moved_busy hpc h
  | blocked =>
    simp only [hpc] at h
    cases h
  | left =>
    simp only [hpc] at h
    cases h

/-- **The inversion of a step.** -/
theorem moved_of_step (h : step d s mv = some t) : Moved d s mv t := by
  cases mv with
  | main l W =>
    simp only [step] at h
    split at h
    · next hloop => exact moved_main hloop h
    · cases h
  | worker w => exact moved_worker h
  | spurious w =>
    simp only [step] at h
    split at h
    · next hpc =>
      cases h
      exact .spurious hpc
    · cases h
  | broadcast =>
    simp only [step] at h
    split at h
    · next hstop =>
      cases h
      exact .broadcast hstop.1 hstop.2
    · cases h
  | join =>
    simp only [step] at h
    split at h
    · cases h
    · next ii hphase =>
      split at h
      · next hii =>
        split at h
        · next hleft =>
          cases h
          exact .join hii hphase hleft
        · cases h
      · cases h

/-- No `accept` of the move fails or returns a number from `FD_SETSIZE` on. -/
def fits (d : Descriptors) (s : Sys N) : Move N → Bool
  | .main l _ => Dispatcher.fits d s.disp l
  | _ => true

/-- The move does not store an `nclient` that has changed since it was loaded. -/
def undisturbed (s : Sys N) : Move N → Bool
  | .main l _ => Dispatcher.undisturbed s.disp l
  | .worker w => Dispatcher.undisturbed s.disp (.leave w)
  | _ => true

/-- A move is a step of the dispatcher, or does not touch it. -/
theorem disp_step (h : Moved d s mv t) :
    t.disp = s.disp ∨ ∃ l, Dispatcher.step d s.disp l = some t.disp ∧
      (fits d s mv = true → Dispatcher.fits d s.disp l = true) ∧
      (undisturbed s mv = true → Dispatcher.undisturbed s.disp l = true) := by
  cases h with
  | main _ _ hd => exact .inr ⟨_, hd, id, id⟩
  | push _ _ hd => exact .inr ⟨_, hd, id, id⟩
  | pop _ hd => exact .inr ⟨_, hd, fun _ => rfl, fun _ => rfl⟩
  | count _ hd => exact .inr ⟨_, hd, fun _ => rfl, id⟩
  | reinsert _ _ hd => exact .inr ⟨_, hd, fun _ => rfl, fun _ => rfl⟩
  | close _ _ hd => exact .inr ⟨_, hd, fun _ => rfl, fun _ => rfl⟩
  | _ => exact .inl rfl

/-- The dispatcher stays orderly. -/
theorem orderly_moved (ho : Orderly d s.disp) (hf : fits d s mv = true)
    (hu : undisturbed s mv = true) (h : Moved d s mv t) : Orderly d t.disp := by
  rcases disp_step h with hd | ⟨l, hd, hfits, hundisturbed⟩
  · rw [hd]
    exact ho
  · exact orderly_step ho (hfits hf) (hundisturbed hu) hd

/-! ## Where the workers are -/

theorem goto_pc (s : Sys N) (w : Fin N) (x : WaitPc) :
    (s.goto w x).pc = Function.update s.pc w x := rfl

/-- Only a blocked worker is moved by a signal. -/
theorem wake_pc (s : Sys N) (W : Finset (Fin N)) (v : Fin N) :
    (s.wake W).pc v = s.pc v ∨ (s.pc v = .blocked ∧ (s.wake W).pc v = .woken) := by
  by_cases hv : v ∈ W ∧ s.pc v = .blocked
  · exact .inr ⟨hv.2, if_pos hv⟩
  · exact .inl (if_neg hv)

/-- What does not tell a woken from a blocked worker is the same. -/
theorem wake_same {α : Type} (f : WaitPc → α) (h : f .woken = f .blocked) (W : Finset (Fin N))
    (v : Fin N) : f ((s.wake W).pc v) = f (s.pc v) := by
  rcases wake_pc s W v with hsame | ⟨hblocked, hwoken⟩
  · rw [hsame]
  · rw [hwoken, hblocked, h]

/-- A worker that has left takes no more steps. -/
theorem left_stays (h : Moved d s mv t) (hv : s.pc v = .left) : t.pc v = .left := by
  -- the worker that moves was not in this place
  have other : ∀ {w : Fin N} {x y : WaitPc}, s.pc w = x → x ≠ .left →
      Function.update s.pc w y v = .left := by
    intro w x y hw hx
    have hne : v ≠ w := by
      intro he
      exact hx (by rw [← hw, ← he, hv])
    rw [Function.update_of_ne hne, hv]
  have woken : ∀ W : Finset (Fin N), (s.wake W).pc v = .left := by
    intro W
    rcases wake_pc s W v with hsame | ⟨hblocked, -⟩
    · exact hsame.trans hv
    · cases hv.symm.trans hblocked
  cases h with
  | main => exact hv
  | push => exact woken _
  | lock hpc =>
    rcases hpc with hpc | hpc
    · exact other hpc WaitPc.noConfusion
    · exact other hpc WaitPc.noConfusion
  | pop hpc => exact other hpc WaitPc.noConfusion
  | test hpc ht => cases ht <;> exact other hpc WaitPc.noConfusion
  | leave hpc ht => cases ht <;> exact other hpc WaitPc.noConfusion
  | wait hpc => exact other hpc WaitPc.noConfusion
  | count => exact hv
  | reinsert hpc => exact other hpc WaitPc.noConfusion
  | close hpc => exact other hpc WaitPc.noConfusion
  | spurious hpc => exact other hpc WaitPc.noConfusion
  | broadcast => exact woken _
  | join => exact hv

/-! ## The basic invariant -/

/-- The mutex is with the worker that is at one of the places that hold it. -/
def Mutex (s : Sys N) : Prop := ∀ w, (s.pc w).holds = true ↔ s.lock = some w

structure Ok (d : Descriptors) (s : Sys N) : Prop where
  own : ∀ fd ∈ d.own, s.disp.connected fd = false
  mutex : Mutex s
  empty : ∀ w, (s.pc w).tested = true → s.disp.queue = []
  idle : ∀ w, s.pc w ≠ .busy → s.disp.workers w = .idle
  stopped : s.phase ≠ .loop → s.disp.main = .stopped
  joined : ∀ ii, s.phase = .joining ii → ∀ w : Fin N, w.val < ii → s.pc w = .left

theorem holds_of_tested {pc : WaitPc} (h : pc.tested = true) : pc.holds = true := by
  cases pc <;> simp_all [WaitPc.tested, WaitPc.holds]

/-- At first everybody is outside. -/
theorem ok_init (d : Descriptors) (N : Nat) : Ok d (init d N) where
  own _ _ := rfl
  mutex w := by
    show false = true ↔ none = some w
    simp
  empty w h := by cases h
  idle _ _ := rfl
  stopped h := absurd rfl h
  joined _ h := Phase.noConfusion h

/-- The mutex does not see steps elsewhere. -/
theorem mutex_congr (h : Mutex s) (hpc : ∀ v, (t.pc v).holds = (s.pc v).holds)
    (hlock : t.lock = s.lock) : Mutex t := by
  intro v
  rw [hpc, hlock]
  exact h v

/-- Who leaves the critical section gives the mutex back. -/
theorem mutex_release {x : WaitPc} (h : Mutex s) (hw : (s.pc w).holds = true)
    (hpc : t.pc = Function.update s.pc w x) (hx : x.holds = false) (hlock : t.lock = none) :
    Mutex t := by
  intro v
  rw [hpc, hlock]
  by_cases hv : v = w
  · subst hv
    rw [Function.update_self, hx]
    simp
  · rw [Function.update_of_ne hv, h v, (h w).mp hw]
    simp [Ne.symm hv]

/-- At most one thread is inside. -/
theorem mutex_step (h : Mutex s) (hm : Moved d s mv t) : Mutex t := by
  cases hm with
  | main => exact h
  | push => exact mutex_congr h (wake_same WaitPc.holds rfl _) rfl
  | @lock w hpc free =>
    intro v
    show (Function.update s.pc w WaitPc.head v).holds = true ↔ some w = some v
    by_cases hv : v = w
    · subst hv
      rw [Function.update_self]
      simp [WaitPc.holds]
    · rw [Function.update_of_ne hv, h v, free]
      simp [Ne.symm hv]
  | pop hpc => exact mutex_release h (by rw [hpc]; rfl) rfl rfl rfl
  | test hpc ht =>
    refine mutex_congr h (update_same WaitPc.holds ?_) rfl
    rw [hpc]
    cases ht <;> rfl
  | leave hpc ht =>
    refine mutex_release h ?_ rfl rfl rfl
    rw [hpc]
    cases ht <;> rfl
  | wait hpc => exact mutex_release h (by rw [hpc]; rfl) rfl rfl rfl
  | count => exact h
  | reinsert hpc => exact mutex_congr h (update_same WaitPc.holds (by rw [hpc]; rfl)) rfl
  | close hpc => exact mutex_congr h (update_same WaitPc.holds (by rw [hpc]; rfl)) rfl
  | spurious hpc => exact mutex_congr h (update_same WaitPc.holds (by rw [hpc]; rfl)) rfl
  | broadcast => exact mutex_congr h (wake_same WaitPc.holds rfl _) rfl
  | join => exact h

/-- Only the worker that holds the mutex has tested the queue. -/
theorem Ok.not_tested (ok : Ok d s) (hw : (s.pc w).holds = true) (hv : (s.pc v).tested = true) :
    v = w := by
  have hlock := (ok.mutex w).mp hw
  have hlock' := (ok.mutex v).mp (holds_of_tested hv)
  exact Option.some.inj (hlock'.symm.trans hlock)

/-- Behind the test of the queue it is still empty. -/
theorem empty_step (ok : Ok d s) (hm : Moved d s mv t) :
    ∀ v, (t.pc v).tested = true → t.disp.queue = [] := by
  -- a place where nothing has been tested
  have off : ∀ {w v : Fin N} {x : WaitPc}, x.tested = false →
      (Function.update s.pc w x v).tested = true → (s.pc v).tested = true ∧ v ≠ w := by
    intro w v x hx hv
    by_cases he : v = w
    · subst he
      rw [Function.update_self, hx] at hv
      cases hv
    · rw [Function.update_of_ne he] at hv
      exact ⟨hv, he⟩
  intro v hv
  cases hm with
  | main _ _ _ hq => exact hq.trans (ok.empty v hv)
  | push _ _ _ _ free =>
    -- whoever has tested holds the mutex, and `push` has to take it
    have htested : (s.pc v).tested = true := by
      rw [← wake_same WaitPc.tested rfl _ v]
      exact hv
    have hlock := (ok.mutex v).mp (holds_of_tested htested)
    rw [free] at hlock
    cases hlock
  | lock => exact ok.empty v (off rfl hv).1
  | pop hpc =>
    obtain ⟨htested, hne⟩ := off rfl hv
    exact absurd (ok.not_tested (by rw [hpc]; rfl) htested) hne
  | @test w pc pc' hpc ht =>
    by_cases he : v = w
    · cases ht with
      | empty hq => exact hq
      | _ => exact ok.empty w (by rw [hpc]; rfl)
    · exact ok.empty v (by rwa [goto_pc, Function.update_of_ne he] at hv)
  | leave => exact ok.empty v (off rfl hv).1
  | wait => exact ok.empty v (off rfl hv).1
  | count _ hd =>
    rcases leave_cases hd with ⟨fd, -, rfl⟩ | ⟨fd, n, -, rfl⟩
    · exact ok.empty v hv
    · exact ok.empty v hv
  | reinsert _ _ hd =>
    obtain ⟨fd, -, rfl⟩ := reinsert_cases hd
    exact ok.empty v (off rfl hv).1
  | close _ _ hd =>
    obtain ⟨fd, -, rfl⟩ := close_cases hd
    exact ok.empty v (off rfl hv).1
  | spurious => exact ok.empty v (off rfl hv).1
  | broadcast =>
    refine ok.empty v ?_
    rw [← wake_same WaitPc.tested rfl Finset.univ v]
    exact hv
  | join => exact ok.empty v hv

/-- A worker in the waiting loop serves nobody. -/
theorem idle_step (ok : Ok d s) (hm : Moved d s mv t) :
    ∀ v, t.pc v ≠ .busy → t.disp.workers v = .idle := by
  -- the worker that moves was not busy, or is idle again
  have moves : ∀ {w v : Fin N} {x : WaitPc}, (s.pc w ≠ .busy ∨ x = .busy) →
      Function.update s.pc w x v ≠ .busy → s.disp.workers v = .idle := by
    intro w v x hw hv
    refine ok.idle v ?_
    by_cases he : v = w
    · subst he
      rw [Function.update_self] at hv
      exact hw.resolve_right hv
    · rwa [Function.update_of_ne he] at hv
  have serves : ∀ {w v : Fin N} {x : WaitPc} {y : Worker}, (x = .busy ∨ y = .idle) →
      Function.update s.pc w x v ≠ .busy →
      Function.update s.disp.workers w y v = .idle := by
    intro w v x y hxy hv
    by_cases he : v = w
    · subst he
      rw [Function.update_self] at hv ⊢
      exact hxy.resolve_left hv
    · rw [Function.update_of_ne he] at hv ⊢
      exact ok.idle v hv
  have notBusy : ∀ {w : Fin N} {x : WaitPc}, s.pc w = x → x ≠ .busy → s.pc w ≠ .busy := by
    intro w x hw hx he
    exact hx (hw.symm.trans he)
  have woken : ∀ (W : Finset (Fin N)) (v : Fin N), (s.wake W).pc v ≠ .busy → s.pc v ≠ .busy := by
    intro W v hv he
    rcases wake_pc s W v with hsame | ⟨hblocked, -⟩
    · exact hv (hsame.trans he)
    · cases he.symm.trans hblocked
  intro v hv
  cases hm with
  | main _ hl hd =>
    rw [(main_cases hl hd).workers_eq]
    exact ok.idle v hv
  | push _ hl hd =>
    rw [(main_cases hl hd).workers_eq]
    exact ok.idle v (woken _ v hv)
  | lock hpc =>
    rcases hpc with hpc | hpc
    · exact moves (.inl (notBusy hpc WaitPc.noConfusion)) hv
    · exact moves (.inl (notBusy hpc WaitPc.noConfusion)) hv
  | pop _ hd =>
    obtain ⟨rq, queue, -, -, rfl⟩ := pop_cases hd
    exact serves (.inl rfl) hv
  | test hpc ht => cases ht <;> exact moves (.inl (notBusy hpc WaitPc.noConfusion)) hv
  | leave hpc ht => cases ht <;> exact moves (.inl (notBusy hpc WaitPc.noConfusion)) hv
  | wait hpc => exact moves (.inl (notBusy hpc WaitPc.noConfusion)) hv
  | @count w _ hpc hd =>
    have hne : v ≠ w := by
      intro he
      exact hv (he ▸ hpc)
    rcases leave_cases hd with ⟨fd, -, rfl⟩ | ⟨fd, n, -, rfl⟩
    · show Function.update s.disp.workers w _ v = .idle
      rw [Function.update_of_ne hne]
      exact ok.idle v hv
    · show Function.update s.disp.workers w _ v = .idle
      rw [Function.update_of_ne hne]
      exact ok.idle v hv
  | reinsert _ _ hd =>
    obtain ⟨fd, -, rfl⟩ := reinsert_cases hd
    exact serves (.inr rfl) hv
  | close _ _ hd =>
    obtain ⟨fd, -, rfl⟩ := close_cases hd
    exact serves (.inr rfl) hv
  | spurious hpc => exact moves (.inl (notBusy hpc WaitPc.noConfusion)) hv
  | broadcast => exact ok.idle v (woken _ v hv)
  | join => exact ok.idle v hv

theorem stopped_step (ok : Ok d s) (hm : Moved d s mv t) :
    t.phase ≠ .loop → t.disp.main = .stopped := by
  intro hphase
  cases hm with
  | main loop => exact absurd loop hphase
  | push loop => exact absurd loop hphase
  | pop _ hd => exact (main_of_worker rfl hd).trans (ok.stopped hphase)
  | count _ hd => exact (main_of_worker rfl hd).trans (ok.stopped hphase)
  | reinsert _ _ hd => exact (main_of_worker rfl hd).trans (ok.stopped hphase)
  | close _ _ hd => exact (main_of_worker rfl hd).trans (ok.stopped hphase)
  | broadcast _ stopped => exact stopped
  | join _ hjoin => exact ok.stopped (by rw [hjoin]; exact Phase.noConfusion)
  | _ => exact ok.stopped hphase

/-- The threads that were joined have left. -/
theorem joined_step (ok : Ok d s) (hm : Moved d s mv t) :
    ∀ ii, t.phase = .joining ii → ∀ w : Fin N, w.val < ii → t.pc w = .left := by
  intro ii hphase v hv
  have hleft := hm
  cases hm with
  | broadcast =>
    cases hphase
    exact absurd hv (Nat.not_lt_zero v.val)
  | @join jj hjj hjoin hlast =>
    cases hphase
    rcases Nat.lt_succ_iff_lt_or_eq.mp hv with hlt | heq
    · exact ok.joined jj hjoin v hlt
    · have hvw : v = ⟨jj, hjj⟩ := Fin.ext heq
      rw [hvw]
      exact hlast
  | _ => exact left_stays hleft (ok.joined ii hphase v hv)

/-- So all of it is kept. -/
theorem ok_step (ok : Ok d s) (h : step d s mv = some t) : Ok d t := by
  have hm := moved_of_step h
  refine ⟨?_, mutex_step ok.mutex hm, empty_step ok hm, idle_step ok hm, stopped_step ok hm,
    joined_step ok hm⟩
  rcases disp_step hm with hd | ⟨l, hd, -⟩
  · rw [hd]
    exact ok.own
  · exact own_step ok.own hd

end FileStorage.Shutdown
