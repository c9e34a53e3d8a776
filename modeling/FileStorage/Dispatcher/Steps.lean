import FileStorage.Dispatcher.Model

/-!
# What a step of the dispatcher does

One inversion for each label: `select_eq`, `visited`, and one `_cases` lemma for
each step of a worker. `Visited` has a constructor for each branch of the pass,
with the tests that lead to it. `MainStep` says less about the steps of `main`:
only what they do to the queue, the workers, the connections and `nclient`.

Two things can go wrong in the steps themselves, and each has a guard that rules
it out: `fits` for an `accept` whose result has no bit of its own in the watched
set, `undisturbed` for an update of `nclient` that overwrites another one.
-/

namespace FileStorage.Dispatcher

open FileStorage.Lib

variable {N : Nat} {d : Descriptors} {s t : State N} {l : Label N} {fd : Nat}

/-- The labels of `main`; the others are steps of a worker. -/
def Label.ofMain : Label N → Bool
  | .select _ | .visit _ _ | .count => true
  | _ => false

/-- `main` is about to call `accept`. -/
def accepting (d : Descriptors) (s : State N) : Bool :=
  match s.main with
  | .pass fd tmpset =>
    decide (fd ≤ s.fdMax ∧ fd ∈ tmpset ∧ fd = d.server) && !s.sigHUP
  | _ => false

/-- The step is not an `accept` that fails, or that returns a number from `FD_SETSIZE` on. -/
def fits (d : Descriptors) (s : State N) : Label N → Bool
  | .visit accepted _ => !accepting d s || accepted.any fun fdClient => decide (fdClient < fdSetSize)
  | _ => true

/-- The step does not store an `nclient` that has changed since it was loaded. -/
def undisturbed (s : State N) : Label N → Bool
  | .count =>
    match s.main with
    | .store _ _ nclient => nclient == s.nclient
    | _ => true
  | .leave w =>
    match s.workers w with
    | .leaving _ nclient => nclient == s.nclient
    | _ => true
  | _ => true

/-- `main` has accepted a connection and not counted it in. -/
def MainPc.counting : MainPc → Bool
  | .load _ _ | .store _ _ _ => true
  | _ => false

/-- Why `main` leaves its loop. -/
def Ended (s : State N) : Prop := s.sigINT = true ∨ (s.sigHUP = true ∧ s.nclient = 0)

/-! ## The steps of main -/

theorem select_eq {ready : Finset Nat} (h : select d s ready = some t) :
    (Ended s ∧ t = { s with main := .stopped }) ∨
      ((∃ fd ∈ s.set, s.isOpen d fd = false) ∧ t = { s with main := .exited }) ∨
      (ready ⊆ s.set ∧ t = { s with main := .pass 0 ready }) := by
  unfold select at h
  split at h
  · next hint =>
    cases h
    exact .inl ⟨.inl hint, rfl⟩
  · split at h
    · next hhup =>
      cases h
      rw [Bool.and_eq_true, beq_iff_eq] at hhup
      exact .inl ⟨.inr hhup, rfl⟩
    · split at h
      · next hbad =>
        cases h
        obtain ⟨fd, hset, -, hclosed⟩ := hbad
        exact .inr (.inl ⟨⟨fd, hset, hclosed⟩, rfl⟩)
      · split at h
        · next hready =>
          cases h
          exact .inr (.inr ⟨hready.1, rfl⟩)
        · cases h

theorem isOpen_eq_false : s.isOpen d fd = false ↔ s.connected fd = false ∧ fd ∉ d.own := by
  unfold State.isOpen
  rw [Bool.or_eq_false_iff, decide_eq_false_iff_not]

/-- The branches of a visit. -/
inductive Visited (d : Descriptors) (s : State N) (fd : Nat) (tmpset : Finset Nat)
    (accepted : Option Nat) (close : Bool) : State N → Prop
  | done (bound : s.fdMax < fd) :
      Visited d s fd tmpset accepted close { s with main := .top }
  | skip (ready : fd ∉ tmpset) :
      Visited d s fd tmpset accepted close { s with main := .pass (fd + 1) tmpset }
  | failed (bound : fd ≤ s.fdMax) (ready : fd ∈ tmpset)
      (server : fd = d.server ∧ s.sigHUP = false) (result : accepted = none) :
      Visited d s fd tmpset accepted close
        { s with set := fdSet s.set none, main := .load fd tmpset }
  | accept {fdClient : Nat} (bound : fd ≤ s.fdMax) (ready : fd ∈ tmpset)
      (server : fd = d.server ∧ s.sigHUP = false) (result : accepted = some fdClient)
      (free : s.connected fdClient = false) (notOwn : fdClient ∉ d.own) :
      Visited d s fd tmpset accepted close
        { s.watch fdClient with
          connected := Function.update s.connected fdClient true
          main := .load fd tmpset }
  | back {fdBuf : Nat} {rest : List Nat} (ready : fd ∈ tmpset) (pipe : fd = d.pipe)
      (piped : s.inPipe = fdBuf :: rest) :
      Visited d s fd tmpset accepted close
        { s.watch fdBuf with inPipe := rest, main := .pass (fd + 1) tmpset }
  | sigint (ready : fd ∈ tmpset) (sigint : fd = d.sigint) :
      Visited d s fd tmpset accepted close
        { s with sigINT := true, main := .pass (fd + 1) tmpset }
  | sighup (ready : fd ∈ tmpset) (sighup : fd = d.sighup) :
      Visited d s fd tmpset accepted close
        { s with sigHUP := true, main := .pass (fd + 1) tmpset }
  | request (bound : fd ≤ s.fdMax) (ready : fd ∈ tmpset)
      (server : ¬ (fd = d.server ∧ s.sigHUP = false)) (pipe : fd ≠ d.pipe) (sigint : fd ≠ d.sigint)
      (sighup : fd ≠ d.sighup) :
      Visited d s fd tmpset accepted close (request s fd close (.pass (fd + 1) tmpset))

/-- What the visit of a descriptor does. -/
theorem visited {tmpset : Finset Nat} {accepted : Option Nat} {close : Bool}
    (h : visit d s fd tmpset accepted close = some t) :
    Visited d s fd tmpset accepted close t := by
  unfold visit at h
  simp only at h
  split at h
  · next hbound =>
    cases h
    exact .done hbound
  next hbound =>
  split at h
  · next hready =>
    cases h
    exact .skip hready
  next hready =>
  have hmem : fd ∈ tmpset := not_not.mp hready
  split at h
  · next hserver =>
    unfold accept at h
    split at h
    · cases h
      exact .failed (Nat.not_lt.mp hbound) hmem hserver rfl
    · split at h
      · cases h
      · next hfree =>
        cases h
        obtain ⟨hcon, hown⟩ := isOpen_eq_false.mp (Bool.not_eq_true _ ▸ hfree)
        exact .accept (Nat.not_lt.mp hbound) hmem hserver rfl hcon hown
  next hserver =>
  split at h
  · next hpipe =>
    split at h
    · cases h
    · next hpiped =>
      cases h
      exact .back hmem hpipe hpiped
  next hpipe =>
  split at h
  · next hint =>
    cases h
    exact .sigint hmem hint
  next hint =>
  split at h
  · next hhup =>
    cases h
    exact .sighup hmem hhup
  next hhup =>
  cases h
  exact .request (Nat.not_lt.mp hbound) hmem hserver hpipe hint hhup

/-- In the branch for a new connection `main` calls `accept`. -/
theorem accepting_of_visit {tmpset : Finset Nat} (hm : s.main = .pass fd tmpset)
    (bound : fd ≤ s.fdMax) (ready : fd ∈ tmpset) (server : fd = d.server ∧ s.sigHUP = false) :
    accepting d s = true := by
  obtain ⟨rfl, hhup⟩ := server
  simp [accepting, hm, bound, ready, hhup]

/-- The steps of `main`, by what they do to the queue, the connections and `nclient`. -/
inductive MainStep (d : Descriptors) (s : State N) (l : Label N) (t : State N) : Prop
  | stop (ended : Ended s) (counting : s.main.counting = false)
      (same : t = { s with main := .stopped })
  | go (main : t.main ≠ .stopped) (queue : t.queue = s.queue) (workers : t.workers = s.workers)
      (connected : t.connected = s.connected) (nclient : t.nclient = s.nclient)
      (counting : t.main.counting = s.main.counting)
  | failed (misfit : fits d s l = false) (main : t.main ≠ .stopped) (queue : t.queue = s.queue)
      (workers : t.workers = s.workers) (connected : t.connected = s.connected)
  | accept (x : Nat) (free : s.connected x = false) (notOwn : x ∉ d.own)
      (main : t.main ≠ .stopped) (queue : t.queue = s.queue) (workers : t.workers = s.workers)
      (connected : t.connected = Function.update s.connected x true)
      (nclient : t.nclient = s.nclient) (before : s.main.counting = false)
      (after : t.main.counting = true)
  | counted (main : t.main ≠ .stopped) (queue : t.queue = s.queue)
      (workers : t.workers = s.workers) (connected : t.connected = s.connected)
      (nclient : undisturbed s l = true → t.nclient = s.nclient + 1)
      (before : s.main.counting = true) (after : t.main.counting = false)
  | push (rq : Req) (main : t.main ≠ .stopped) (queue : t.queue = s.queue ++ [rq])
      (workers : t.workers = s.workers) (connected : t.connected = s.connected)
      (nclient : t.nclient = s.nclient) (counting : t.main.counting = s.main.counting)

/-- A client that is ready is served by a step of its kind. -/
theorem request_cases {tmpset : Finset Nat} {close : Bool} (hm : s.main = .pass fd tmpset)
    (h : request s fd close (.pass (fd + 1) tmpset) = t) : MainStep d s l t := by
  have hcounting : s.main.counting = false := by rw [hm]; rfl
  unfold request at h
  simp only at h
  split at h
  · subst h
    exact .go MainPc.noConfusion rfl rfl rfl rfl hcounting.symm
  · split at h
    · subst h
      exact .push ⟨fd, close⟩ MainPc.noConfusion rfl rfl rfl rfl hcounting.symm
    · subst h
      exact .go MainPc.noConfusion rfl rfl rfl rfl hcounting.symm

/-- Each branch of the visit is a step of its kind. -/
theorem visit_cases {tmpset : Finset Nat} {accepted : Option Nat} {close : Bool}
    (hm : s.main = .pass fd tmpset) (h : visit d s fd tmpset accepted close = some t) :
    MainStep d s (.visit accepted close) t := by
  have hcounting : s.main.counting = false := by rw [hm]; rfl
  cases visited h with
  | failed bound ready server result =>
    refine .failed ?_ MainPc.noConfusion rfl rfl rfl
    simp only [fits, accepting_of_visit hm bound ready server, result]
    rfl
  | @accept fdClient _ _ _ _ free notOwn =>
    exact .accept fdClient free notOwn MainPc.noConfusion rfl rfl rfl rfl hcounting rfl
  | request => exact request_cases hm rfl
  | _ => exact .go MainPc.noConfusion rfl rfl rfl rfl hcounting.symm

/-- A step of main, by what it does. -/
theorem main_cases (hl : l.ofMain = true) (h : step d s l = some t) : MainStep d s l t := by
  cases l with
  | select ready =>
    simp only [step] at h
    split at h
    · next hm =>
      have hcounting : s.main.counting = false := by rw [hm]; rfl
      rcases select_eq h with ⟨hended, rfl⟩ | ⟨-, rfl⟩ | ⟨-, rfl⟩
      · exact .stop hended hcounting rfl
      · exact .go MainPc.noConfusion rfl rfl rfl rfl hcounting.symm
      · exact .go MainPc.noConfusion rfl rfl rfl rfl hcounting.symm
    · cases h
  | visit accepted close =>
    simp only [step] at h
    split at h
    · next hm => exact visit_cases hm h
    · cases h
  | count =>
    simp only [step] at h
    split at h
    · next hm =>
      cases h
      exact .go MainPc.noConfusion rfl rfl rfl rfl (by rw [hm]; rfl)
    · next hm =>
      cases h
      refine .counted MainPc.noConfusion rfl rfl rfl (fun hu => ?_) (by rw [hm]; rfl) rfl
      simp only [undisturbed, hm, beq_iff_eq] at hu
      rw [hu]
    · cases h
  | _ => cases hl

/-- A step of `main` gives no worker anything else to do. -/
theorem MainStep.workers_eq (h : MainStep d s l t) : t.workers = s.workers := by
  cases h with
  | stop _ _ hsame => rw [hsame]
  | go _ _ hw => exact hw
  | failed _ _ _ hw => exact hw
  | accept _ _ _ _ _ hw => exact hw
  | counted _ _ hw => exact hw
  | push _ _ _ hw => exact hw

/-- It queues at most one request, and behind the others. -/
theorem MainStep.queue_cases (h : MainStep d s l t) :
    t.queue = s.queue ∨ ∃ rq, t.queue = s.queue ++ [rq] := by
  cases h with
  | stop _ _ hsame => exact .inl (by rw [hsame])
  | go _ hq => exact .inl hq
  | failed _ _ hq => exact .inl hq
  | accept _ _ _ _ hq => exact .inl hq
  | counted _ hq => exact .inl hq
  | push rq _ hq => exact .inr ⟨rq, hq⟩

/-! ## The steps of a worker -/

/-- A worker takes the oldest request. -/
theorem pop_cases {w : Fin N} (h : step d s (.pop w) = some t) :
    ∃ rq queue, s.workers w = .idle ∧ s.queue = rq :: queue ∧
      t = { s.setWorker w (.serving rq) with queue := queue } := by
  simp only [step] at h
  split at h
  · next rq queue _ hw hq =>
    cases h
    exact ⟨rq, queue, hw, hq, rfl⟩
  · cases h

/-- A worker that has answered gives the descriptor back. -/
theorem reinsert_cases {w : Fin N} (h : step d s (.reinsert w) = some t) :
    ∃ fd, s.workers w = .serving ⟨fd, false⟩ ∧
      t = { s.setWorker w .idle with inPipe := s.inPipe ++ [fd] } := by
  simp only [step] at h
  split at h
  · next fd _ hw =>
    cases h
    exact ⟨fd, hw, rfl⟩
  · cases h

/-- The two halves of `nclient -= 1`. -/
theorem leave_cases {w : Fin N} (h : step d s (.leave w) = some t) :
    (∃ fd, s.workers w = .serving ⟨fd, true⟩ ∧ t = s.setWorker w (.leaving fd s.nclient)) ∨
    ∃ fd nclient, s.workers w = .leaving fd nclient ∧
      t = { s.setWorker w (.closing fd) with nclient := nclient - 1 } := by
  simp only [step] at h
  split at h
  · next fd _ hw =>
    cases h
    exact .inl ⟨fd, hw, rfl⟩
  · next fd nclient _ hw =>
    cases h
    exact .inr ⟨fd, nclient, hw, rfl⟩
  · cases h

/-- A worker closes the connection of a client that leaves. -/
theorem close_cases {w : Fin N} (h : step d s (.close w) = some t) :
    ∃ fd, s.workers w = .closing fd ∧
      t = { s.setWorker w .idle with connected := Function.update s.connected fd false } := by
  simp only [step] at h
  split at h
  · next fd _ hw =>
    cases h
    exact ⟨fd, hw, rfl⟩
  · cases h

/-- A worker does not move `main`. -/
theorem main_of_worker (hl : l.ofMain = false) (h : step d s l = some t) : t.main = s.main := by
  cases l with
  | select ready => cases hl
  | visit accepted close => cases hl
  | count => cases hl
  | pop w =>
    obtain ⟨rq, queue, -, -, rfl⟩ := pop_cases h
    rfl
  | reinsert w =>
    obtain ⟨fd, -, rfl⟩ := reinsert_cases h
    rfl
  | leave w =>
    rcases leave_cases h with ⟨fd, -, rfl⟩ | ⟨fd, nclient, -, rfl⟩
    · rfl
    · rfl
  | close w =>
    obtain ⟨fd, -, rfl⟩ := close_cases h
    rfl

/-- No connection ever has a number of the server's own. -/
theorem own_step (hown : ∀ fd ∈ d.own, s.connected fd = false) (h : step d s l = some t) :
    ∀ fd ∈ d.own, t.connected fd = false := by
  intro fd hfd
  cases hl : l.ofMain with
  | true =>
    cases main_cases hl h with
    | stop _ _ hsame =>
      rw [hsame]
      exact hown fd hfd
    | go _ _ _ hcon => rw [hcon]; exact hown fd hfd
    | failed _ _ _ _ hcon => rw [hcon]; exact hown fd hfd
    | counted _ _ _ hcon => rw [hcon]; exact hown fd hfd
    | push _ _ _ _ hcon => rw [hcon]; exact hown fd hfd
    | accept x _ hx _ _ _ hcon =>
      have hne : fd ≠ x := fun he => hx (he ▸ hfd)
      rw [hcon, Function.update_of_ne hne]
      exact hown fd hfd
  | false =>
    cases l with
    | select ready => cases hl
    | visit accepted close => cases hl
    | count => cases hl
    | pop w =>
      obtain ⟨rq, queue, -, -, rfl⟩ := pop_cases h
      exact hown fd hfd
    | reinsert w =>
      obtain ⟨fd, -, rfl⟩ := reinsert_cases h
      exact hown _ hfd
    | leave w =>
      rcases leave_cases h with ⟨fd, -, rfl⟩ | ⟨fd, n, -, rfl⟩
      · exact hown _ hfd
      · exact hown _ hfd
    | close w =>
      obtain ⟨x, -, rfl⟩ := close_cases h
      show Function.update s.connected x false fd = false
      by_cases he : fd = x
      · rw [he, Function.update_self]
      · rw [Function.update_of_ne he]
        exact hown fd hfd

end FileStorage.Dispatcher
