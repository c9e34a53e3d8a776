import FileStorage.Dispatcher.Tokens

/-!
# Which descriptors are clients

`main` tells the descriptors apart by a chain of tests, and the first of them
asks for the listening socket *and* that SIGHUP has not come. After SIGHUP a
ready listening socket passes the whole chain and ends in the last branch, which
reads a request from it, and that fails. Every other descriptor that gets there
belongs to a client (`reads_only_clients`), because the watched descriptors of
the server are all named in the chain, and nothing else is watched as long as
`accept` has done what it should (`fits`).

`Counted` says what `nclient` counts, as long as no update of it is lost
(`undisturbed`): the connections that no worker has counted out, but for one
that `main` has accepted and is counting in. So a worker that has a client in
hand keeps `nclient` above zero, and once `main` has stopped, the reason for it
stays true (`Ended`).
-/

namespace FileStorage.Dispatcher

open FileStorage.Lib

variable {N : Nat} {d : Descriptors} {s t : State N} {l : Label N} {fd : Nat}

/-- The visit takes the branch that reads a request from the descriptor. -/
def Reads (d : Descriptors) (s : State N) (fd : Nat) : Prop :=
  ∃ tmpset, s.main = .pass fd tmpset ∧ fd ≤ s.fdMax ∧ fd ∈ tmpset ∧
    ¬ (fd = d.server ∧ s.sigHUP = false) ∧ fd ≠ d.pipe ∧ fd ≠ d.sigint ∧ fd ≠ d.sighup

/-- The worker has answered CLOSE CONNECTION. -/
def Worker.closes (fd : Nat) : Worker → Prop
  | .leaving fd' _ => fd' = fd
  | .closing fd' => fd' = fd
  | _ => False

theorem Worker.fd?_of_closes {x : Worker} (h : x.closes fd) : x.fd? = some fd := by
  cases x with
  | leaving fd' nclient => exact congrArg some h
  | closing fd' => exact congrArg some h
  | _ => cases h

/-- A client that was accepted and has not closed its connection. -/
structure IsClient (d : Descriptors) (s : State N) (fd : Nat) : Prop where
  notOwn : fd ∉ d.own
  connected : s.connected fd = true
  notClosing : ∀ w, ¬ (s.workers w).closes fd

/-- The step does not visit a ready listening socket after SIGHUP. -/
def quiet (d : Descriptors) (s : State N) : Label N → Bool
  | .visit _ _ =>
    match s.main with
    | .pass fd tmpset => !(fd == d.server && decide (fd ∈ tmpset) && s.sigHUP)
    | _ => true
  | _ => true

/-! ## The branch -/

/-- In that branch the visit is `request`. -/
theorem visit_of_reads (h : Reads d s fd) (accepted : Option Nat) (close : Bool) :
    ∃ tmpset, s.main = .pass fd tmpset ∧
      step d s (.visit accepted close) = some (request s fd close (.pass (fd + 1) tmpset)) := by
  obtain ⟨tmpset, hm, hle, hmem, hsrv, hpipe, hint, hhup⟩ := h
  refine ⟨tmpset, hm, ?_⟩
  simp only [step, hm, visit]
  rw [if_neg (Nat.not_lt.mpr hle), if_neg (not_not.mpr hmem), if_neg hsrv, if_neg hpipe,
    if_neg hint, if_neg hhup]

/-- In no other one a visit queues a request or ends the process. -/
theorem visit_of_not_reads {tmpset : Finset Nat} {accepted : Option Nat} {close : Bool}
    (hm : s.main = .pass fd tmpset) (hno : ¬ Reads d s fd)
    (h : visit d s fd tmpset accepted close = some t) :
    t.queue = s.queue ∧ t.main ≠ .exited := by
  cases visited h with
  | request bound ready server pipe sigint sighup =>
    exact absurd ⟨tmpset, hm, bound, ready, server, pipe, sigint, sighup⟩ hno
  | _ => exact ⟨rfl, MainPc.noConfusion⟩

/-- What is watched and not the server's own is a client. -/
theorem Inv.isClient (hi : Inv d s) (hset : fd ∈ s.set) (hown : fd ∉ d.own) :
    IsClient d s fd := by
  obtain ⟨hcon, hnone⟩ := hi.waiting hset hown
  refine ⟨hown, hcon, fun w hw => ?_⟩
  have hpos : 0 < s.held fd := held_pos (Worker.fd?_of_closes hw)
  omega

/-- The branch is for a client, or for the listening socket after SIGHUP. -/
theorem reads_cases (hi : Inv d s) (h : Reads d s fd) :
    IsClient d s fd ∨ (fd = d.server ∧ s.sigHUP = true) := by
  obtain ⟨tmpset, hm, -, hmem, hsrv, hpipe, hint, hhup⟩ := h
  have hset : fd ∈ s.set := hi.ready hm hmem
  by_cases hown : fd ∈ d.own
  · have hwatched := hi.watchedOwn fd hset hown
    simp only [Descriptors.watched, Finset.mem_insert, Finset.mem_singleton] at hwatched
    have heq : fd = d.server := by tauto
    exact .inr ⟨heq, by simpa [heq] using hsrv⟩
  · exact .inl (hi.isClient hset hown)

theorem reads_quiet {accepted : Option Nat} {close : Bool} (hi : Inv d s) (h : Reads d s fd)
    (hq : quiet d s (.visit accepted close) = true) : IsClient d s fd := by
  rcases reads_cases hi h with hc | ⟨heq, hhup⟩
  · exact hc
  · obtain ⟨tmpset, hm, -, hmem, -⟩ := h
    simp only [quiet, hm, hhup, Bool.and_true, Bool.not_eq_true', Bool.and_eq_false_iff,
      beq_eq_false_iff_ne, decide_eq_false_iff_not] at hq
    rcases hq with hne | hnot
    · exact absurd heq hne
    · exact absurd hmem hnot

theorem not_exited_select {ready : Finset Nat} (hi : Inv d s) (h : select d s ready = some t) :
    t.main ≠ .exited := by
  rcases select_eq h with ⟨-, rfl⟩ | ⟨⟨fd, hset, hclosed⟩, -⟩ | ⟨-, rfl⟩
  · exact MainPc.noConfusion
  · exact absurd (hi.isOpen hset) (Bool.not_eq_true _ ▸ hclosed)
  · exact MainPc.noConfusion

/-- Reading from a client does not end the process. -/
theorem not_exited_request {next : MainPc} {close : Bool} (hnext : next ≠ .exited)
    (hc : IsClient d s fd) : (request s fd close next).main ≠ .exited := by
  unfold request
  simp only
  split
  · exact MainPc.noConfusion
  · rw [if_pos hc.connected]
    exact hnext

/-- A quiet step does not end the process. -/
theorem not_exited_step (hi : Inv d s) (hrun : s.main ≠ .exited) (hq : quiet d s l = true)
    (h : step d s l = some t) : t.main ≠ .exited := by
  cases hl : l.ofMain with
  | false =>
    rw [main_of_worker hl h]
    exact hrun
  | true =>
    cases l with
    | select ready =>
      simp only [step] at h
      split at h
      · exact not_exited_select hi h
      · cases h
    | visit accepted close =>
      simp only [step] at h
      split at h
      · next fd tmpset hm =>
        by_cases hr : Reads d s fd
        · obtain ⟨tmpset', hm', hreq⟩ := visit_of_reads hr accepted close
          simp only [step, hm] at hreq
          rw [Option.some.inj (h.symm.trans hreq)]
          exact not_exited_request MainPc.noConfusion (reads_quiet hi hr hq)
        · exact (visit_of_not_reads hm hr h).2
      · cases h
    | count =>
      simp only [step] at h
      split at h
      · cases h
        exact MainPc.noConfusion
      · cases h
        exact MainPc.noConfusion
      · cases h
    | _ => cases hl

/-- **Requests are read only from clients**, in every run that never visits a
ready listening socket after SIGHUP and whose calls of `accept` succeed with a number
below `FD_SETSIZE`; and no such run ends the process. -/
theorem reads_only_clients (d : Descriptors) (N : Nat) (s : State N)
    (h : Reach (step d) (fun s l => (quiet d s l && fits d s l) = true) (init d N) s) :
    s.main ≠ .exited ∧
    ∀ fd accepted close, quiet d s (.visit accepted close) = true → Reads d s fd →
      IsClient d s fd := by
  have hall : Inv d s ∧ s.main ≠ .exited := by
    refine h.invariant (fun s => Inv d s ∧ s.main ≠ .exited)
      ⟨inv_init d N, MainPc.noConfusion⟩ ?_
    intro s l t hi hg hs
    obtain ⟨hq, hf⟩ := Bool.and_eq_true_iff.mp hg
    exact ⟨inv_step hi.1 hf hs, not_exited_step hi.1 hi.2 hq hs⟩
  exact ⟨hall.2, fun fd accepted close hq hr => reads_quiet hall.1 hr hq⟩

/-- A client connects, SIGHUP comes, and the client is read from. -/
theorem reads_only_clients_after_hup :
    ∃ s : State 2,
      Reach (step atStart) (fun s l => (quiet atStart s l && fits atStart s l) = true)
        (init atStart 2) s ∧
      s.sigHUP = true ∧ Reads atStart s 11 ∧ IsClient atStart s 11 ∧ s.main ≠ .exited := by
  obtain ⟨s, hr, hp⟩ := Reach.of_guarded_test (step atStart)
    (fun s l => quiet atStart s l && fits atStart s l) (init atStart 2)
    (connects (some 11) 4 ++ onePass {4} ++ [.select {11}] ++
      List.replicate 11 (.visit none true))
    (fun s => s.sigHUP && (s.main == .pass 11 {11} && s.fdMax == 11)) (by decide +kernel)
  simp only [Bool.and_eq_true, beq_iff_eq] at hp
  obtain ⟨hhup, hm, hmax⟩ := hp
  have hreads : Reads atStart s 11 :=
    ⟨{11}, hm, (by rw [hmax]), (by decide), (by rw [hhup]; decide), by decide, by decide, by decide⟩
  have hmain := reads_only_clients atStart 2 s hr
  refine ⟨s, hr, hhup, hreads, hmain.2 11 none true ?_ hreads, hmain.1⟩
  simp only [quiet, hm, hhup]
  decide

/-- A client connects and SIGHUP comes; the next connection attempt makes
`main` read a request from the listening socket, and ends the server under the
connected client. -/
theorem listening_socket_read :
    (∃ s : State 2, Reach (step atStart) anyStep (init atStart 2) s ∧ s.connected 11 = true ∧
      Reads atStart s 8 ∧ ¬ IsClient atStart s 8) ∧
    ∃ s : State 2, Reach (step atStart) anyStep (init atStart 2) s ∧ s.connected 11 = true ∧
      s.main = .exited := by
  constructor
  · obtain ⟨s, hr, hp⟩ := Reach.of_run_test (step atStart) (init atStart 2)
      (connects (some 11) 4 ++ onePass {4} ++ [.select {8}] ++
        List.replicate 8 (.visit none true))
      (fun s => s.connected 11 && (s.sigHUP && (s.main == .pass 8 {8} && s.fdMax == 11)))
      (by decide +kernel)
    simp only [Bool.and_eq_true, beq_iff_eq] at hp
    obtain ⟨hcon, hhup, hm, hmax⟩ := hp
    refine ⟨s, hr, hcon, ⟨{8}, hm, (by rw [hmax]; decide), by decide, (by rw [hhup]; decide),
      by decide, by decide, by decide⟩, fun hc => hc.notOwn (by decide)⟩
  · obtain ⟨s, hr, hp⟩ := Reach.of_run_test (step atStart) (init atStart 2)
      (connects (some 11) 4 ++ onePass {4} ++ [.select {8}] ++
        List.replicate 9 (.visit none true))
      (fun s => s.connected 11 && s.main == .exited) (by decide +kernel)
    simp only [Bool.and_eq_true, beq_iff_eq] at hp
    exact ⟨s, hr, hp.1, hp.2⟩

/-! ## How many clients -/

/-- The clients that `main` has counted in or has begun to count in. -/
def State.counted (s : State N) : Int := s.nclient + if s.main.counting then 1 else 0

/-- They are the connections that no worker has counted out. -/
def Counted (s : State N) : Prop :=
  ∃ C : Finset Nat, (∀ fd, fd ∈ C ↔ s.connected fd = true ∧ ∀ w, s.workers w ≠ .closing fd) ∧
    s.counted = C.card

theorem counted_init (d : Descriptors) (N : Nat) : Counted (init d N) := by
  refine ⟨∅, fun fd => ?_, rfl⟩
  constructor
  · intro hfd
    cases hfd
  · intro hfd
    cases hfd.1

theorem counted_eq (hn : t.nclient = s.nclient) (hm : t.main.counting = s.main.counting) :
    t.counted = s.counted := by
  unfold State.counted
  rw [hn, hm]

/-- Outside of `nclient += 1` the two numbers are the same. -/
theorem counted_of_not (hm : s.main.counting = false) : s.counted = s.nclient := by
  unfold State.counted
  rw [hm]
  exact Int.add_zero _

/-- Steps that neither accept nor close a connection. -/
theorem counted_congr (h : Counted s) (hcon : t.connected = s.connected)
    (hn : t.counted = s.counted)
    (hw : ∀ w fd, t.workers w = .closing fd ↔ s.workers w = .closing fd) : Counted t := by
  obtain ⟨C, hC, hcard⟩ := h
  refine ⟨C, fun fd => ?_, hn.trans hcard⟩
  rw [hC, hcon]
  exact and_congr Iff.rfl (forall_congr' fun w => not_congr (hw w fd).symm)

/-- The same for a worker that gets something else to do. -/
theorem closing_update {w v : Fin N} {x : Worker} (hs : ∀ fd, s.workers w ≠ .closing fd)
    (hx : ∀ fd, x ≠ .closing fd) :
    Function.update s.workers w x v = .closing fd ↔ s.workers v = .closing fd := by
  by_cases hv : v = w
  · subst hv
    rw [Function.update_self]
    exact ⟨fun he => absurd he (hx fd), fun he => absurd he (hs fd)⟩
  · rw [Function.update_of_ne hv]

/-- A descriptor is with one worker at most. -/
theorem Inv.holder_unique (hi : Inv d s) {v w : Fin N} (hv : (s.workers v).fd? = some fd)
    (hw : (s.workers w).fd? = some fd) : v = w := by
  have hpos : 0 < s.queued fd + s.held fd + s.piped fd := by
    have := held_pos hv
    omega
  have hone : s.held fd ≤ 1 := by
    have := (hi.away hpos).2.2.2
    omega
  exact Finset.card_le_one.mp hone v (Finset.mem_filter.mpr ⟨Finset.mem_univ v, hv⟩) w
    (Finset.mem_filter.mpr ⟨Finset.mem_univ w, hw⟩)

/-- The client that a worker has in hand is connected, and nobody else is closing its
descriptor. -/
theorem Inv.in_hand {w : Fin N} (hi : Inv d s) (hw : (s.workers w).fd? = some fd) :
    fd ∉ d.own ∧ s.connected fd = true ∧ ∀ v, s.workers v = .closing fd → v = w := by
  have hpos : 0 < s.queued fd + s.held fd + s.piped fd := by
    have := held_pos hw
    omega
  obtain ⟨hown, hcon, -, -⟩ := hi.away hpos
  exact ⟨hown, hcon, fun v hv => hi.holder_unique (by rw [hv]; rfl) hw⟩

/-- A client that has not been counted out keeps `nclient` above zero. -/
theorem in_hand_pos {w : Fin N} (hi : Inv d s) (hc : Counted s) (hm : s.main.counting = false)
    (hw : (s.workers w).fd? = some fd) (hne : s.workers w ≠ .closing fd) : 0 < s.nclient := by
  obtain ⟨C, hC, hcard⟩ := hc
  obtain ⟨-, hcon, honly⟩ := hi.in_hand hw
  have hmem : fd ∈ C := (hC fd).mpr ⟨hcon, fun v hv => hne (honly v hv ▸ hv)⟩
  have hpos := Finset.card_pos.mpr ⟨fd, hmem⟩
  rw [counted_of_not hm] at hcard
  omega

/-- A connection is accepted. No worker is still closing its number. -/
theorem counted_accept {x : Nat} (hi : Inv d s) (hc : Counted s) (hfree : s.connected x = false)
    (hown : x ∉ d.own) (hw : t.workers = s.workers)
    (hcon : t.connected = Function.update s.connected x true) (hn : t.counted = s.counted + 1) :
    Counted t := by
  have hclosing : ∀ w, s.workers w ≠ .closing x := by
    intro w hclose
    have hpos : 0 < s.held x := held_pos (w := w) (by rw [hclose]; rfl)
    have hnone := (hi.unused hfree hown).2
    omega
  obtain ⟨C, hC, hcard⟩ := hc
  have hx : x ∉ C := by
    intro hmem
    have hyes := ((hC x).mp hmem).1
    rw [hfree] at hyes
    cases hyes
  refine ⟨insert x C, fun fd => ?_, ?_⟩
  · rw [Finset.mem_insert, hC, hcon, hw]
    by_cases hfd : fd = x
    · subst hfd
      rw [Function.update_self]
      simp [hclosing]
    · rw [Function.update_of_ne hfd]
      simp [hfd]
  · rw [hn, hcard, Finset.card_insert_of_notMem hx]
    push_cast
    rfl

/-- A worker counts a connection out. -/
theorem counted_leave {w : Fin N} {x : Nat} {n : Int} (hi : Inv d s) (hc : Counted s)
    (hw : s.workers w = .leaving x n)
    (hworkers : t.workers = Function.update s.workers w (.closing x))
    (hcon : t.connected = s.connected) (hn : t.counted = s.counted - 1) : Counted t := by
  have hheld : (s.workers w).fd? = some x := by rw [hw]; rfl
  obtain ⟨-, hopen, honly⟩ := hi.in_hand hheld
  obtain ⟨C, hC, hcard⟩ := hc
  have hx : x ∈ C := by
    refine (hC x).mpr ⟨hopen, fun v hv => ?_⟩
    obtain rfl := honly v hv
    cases hw.symm.trans hv
  refine ⟨C.erase x, fun fd => ?_, ?_⟩
  · rw [Finset.mem_erase, hC, hcon, hworkers]
    constructor
    · intro hfd
      refine ⟨hfd.2.1, fun v hv => ?_⟩
      by_cases hvw : v = w
      · subst hvw
        rw [Function.update_self] at hv
        exact hfd.1 (Worker.closing.inj hv).symm
      · rw [Function.update_of_ne hvw] at hv
        exact hfd.2.2 v hv
    · intro hfd
      refine ⟨fun he => ?_, hfd.1, fun v hv => ?_⟩
      · exact hfd.2 w (by rw [Function.update_self, he])
      · have hvw : v ≠ w := by
          intro he
          subst he
          cases hw.symm.trans hv
        exact hfd.2 v (by rw [Function.update_of_ne hvw, hv])
  · have hpos := Finset.card_pos.mpr ⟨x, hx⟩
    rw [hn, hcard, Finset.card_erase_of_mem hx]
    omega

/-- A connection that was counted out is closed. -/
theorem counted_close {w : Fin N} {x : Nat} (hc : Counted s) (hw : s.workers w = .closing x)
    (hworkers : t.workers = Function.update s.workers w .idle)
    (hcon : t.connected = Function.update s.connected x false) (hn : t.counted = s.counted) :
    Counted t := by
  obtain ⟨C, hC, hcard⟩ := hc
  refine ⟨C, fun fd => ?_, hn.trans hcard⟩
  rw [hC, hcon, hworkers]
  by_cases hfd : fd = x
  · subst hfd
    rw [Function.update_self]
    exact ⟨fun hyes => absurd hw (hyes.2 w), (by intro hyes; cases hyes.1)⟩
  · rw [Function.update_of_ne hfd]
    refine and_congr Iff.rfl (forall_congr' fun v => not_congr ?_)
    by_cases hvw : v = w
    · subst hvw
      rw [Function.update_self, hw]
      exact ⟨fun he => absurd (Worker.closing.inj he).symm hfd, (by intro he; cases he)⟩
    · rw [Function.update_of_ne hvw]

theorem counted_step (hi : Inv d s) (hc : Counted s) (hf : fits d s l = true)
    (hu : undisturbed s l = true) (h : step d s l = some t) : Counted t := by
  cases hl : l.ofMain with
  | true =>
    cases main_cases hl h with
    | stop _ hm hsame =>
      subst hsame
      exact counted_congr hc rfl (counted_eq rfl hm.symm) fun w fd => Iff.rfl
    | go _ _ hw hcon hn hm => exact counted_congr hc hcon (counted_eq hn hm) (by rw [hw]; simp)
    | push _ _ _ hw hcon hn hm => exact counted_congr hc hcon (counted_eq hn hm) (by rw [hw]; simp)
    | failed hno =>
      rw [hf] at hno
      cases hno
    | accept x hfree hown _ _ hw hcon hn hbefore hafter =>
      refine counted_accept hi hc hfree hown hw hcon ?_
      rw [counted_of_not hbefore, State.counted, hafter, hn]
      rfl
    | counted _ _ hw hcon hn hbefore hafter =>
      refine counted_congr hc hcon ?_ (by rw [hw]; simp)
      rw [counted_of_not hafter, State.counted, hbefore, hn hu]
      rfl
  | false =>
    have hm := main_of_worker hl h
    cases l with
    | select ready => cases hl
    | visit accepted close => cases hl
    | count => cases hl
    | pop w =>
      obtain ⟨rq, queue, hw, -, rfl⟩ := pop_cases h
      exact counted_congr hc rfl rfl fun v fd =>
        closing_update (by rw [hw]; simp) (by simp)
    | reinsert w =>
      obtain ⟨fd, hw, rfl⟩ := reinsert_cases h
      exact counted_congr hc rfl rfl fun v fd' =>
        closing_update (by rw [hw]; simp) (by simp)
    | leave w =>
      rcases leave_cases h with ⟨x, hw, rfl⟩ | ⟨x, n, hw, rfl⟩
      · exact counted_congr hc rfl rfl fun v fd =>
          closing_update (by rw [hw]; simp) (by simp)
      · -- nobody has written `nclient` since it was loaded
        have hn : n = s.nclient := by
          simpa only [undisturbed, hw, beq_iff_eq] using hu
        refine counted_leave hi hc hw rfl rfl ?_
        show n - 1 + (if s.main.counting then 1 else 0) = s.nclient +
          (if s.main.counting then 1 else 0) - 1
        omega
    | close w =>
      obtain ⟨x, hw, rfl⟩ := close_cases h
      exact counted_close hc hw rfl rfl rfl

/-- Once `main` has stopped, the reason for it stays: nobody is accepted any
more, and without a client no worker counts one out. -/
theorem ended_step (hi : Inv d s) (hc : Counted s) (he : s.main = .stopped → Ended s)
    (h : step d s l = some t) : t.main = .stopped → Ended t := by
  intro hstop
  cases hl : l.ofMain with
  | true =>
    cases main_cases hl h with
    | stop hended _ hsame =>
      rw [hsame]
      exact hended
    | go hmain => exact absurd hstop hmain
    | failed _ hmain => exact absurd hstop hmain
    | accept _ _ _ hmain => exact absurd hstop hmain
    | counted hmain => exact absurd hstop hmain
    | push _ hmain => exact absurd hstop hmain
  | false =>
    have hstop' : s.main = .stopped := (main_of_worker hl h).symm.trans hstop
    cases l with
    | select ready => cases hl
    | visit accepted close => cases hl
    | count => cases hl
    | pop w =>
      obtain ⟨rq, queue, -, -, rfl⟩ := pop_cases h
      exact he hstop
    | reinsert w =>
      obtain ⟨fd, -, rfl⟩ := reinsert_cases h
      exact he hstop
    | leave w =>
      rcases leave_cases h with ⟨fd, -, rfl⟩ | ⟨fd, n, hw, rfl⟩
      · exact he hstop
      · rcases he hstop with hint | ⟨-, hzero⟩
        · exact .inl hint
        · have hheld : (s.workers w).fd? = some fd := by rw [hw]; rfl
          have hpos := in_hand_pos hi hc (by rw [hstop']; rfl) hheld
            (by rw [hw]; exact Worker.noConfusion)
          omega
    | close w =>
      obtain ⟨fd, -, rfl⟩ := close_cases h
      exact he hstop

/-- What holds of the dispatcher as long as `accept` does what it should and no update of
`nclient` is lost. -/
structure Orderly (d : Descriptors) (s : State N) : Prop where
  inv : Inv d s
  counted : Counted s
  ended : s.main = .stopped → Ended s

theorem orderly_init (d : Descriptors) (N : Nat) : Orderly d (init d N) :=
  ⟨inv_init d N, counted_init d N, fun hstop => MainPc.noConfusion hstop⟩

theorem orderly_step (ho : Orderly d s) (hf : fits d s l = true) (hu : undisturbed s l = true)
    (h : step d s l = some t) : Orderly d t :=
  ⟨inv_step ho.inv hf h, counted_step ho.inv ho.counted hf hu h,
    ended_step ho.inv ho.counted ho.ended h⟩

end FileStorage.Dispatcher
