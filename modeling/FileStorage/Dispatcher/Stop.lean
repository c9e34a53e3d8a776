import FileStorage.Dispatcher.Clients

/-!
# SIGHUP lets the clients finish

On SIGINT or SIGQUIT `main` leaves its loop at the next chance. On SIGHUP it
leaves when `nclient` is 0, and `nclient` counts the clients that no worker has
counted out. So when SIGHUP alone has stopped `main`, nothing is left to do for
anybody: no request is queued or being served, no descriptor is on its way back,
and the only connections still open are those a worker is about to close. It
stays so while the workers go on.

All of this rests on `nclient`. Nothing protects it, and when `main` and a worker
update it at once one of the two updates is lost: then `main` can stop with a
client connected (`hup_stops_early`).
-/

namespace FileStorage.Dispatcher

open FileStorage.Lib

variable {N : Nat} {d : Descriptors} {s : State N}

/-- No client is waiting for anything. -/
structure Quiescent (d : Descriptors) (s : State N) : Prop where
  nclient : s.nclient = 0
  queue : s.queue = []
  inPipe : s.inPipe = []
  serving : ∀ w rq, s.workers w ≠ .serving rq
  leaving : ∀ w fd nclient, s.workers w ≠ .leaving fd nclient
  closing : ∀ fd, s.connected fd = true → ∃ w, s.workers w = .closing fd
  watched : s.set ⊆ d.watched

/-- When nobody is counted, every connection is being closed. -/
theorem closing_of_zero (hc : Counted s) (h : s.counted = 0) {fd : Nat}
    (hcon : s.connected fd = true) : ∃ w, s.workers w = .closing fd := by
  obtain ⟨C, hC, hcard⟩ := hc
  rw [h] at hcard
  have hempty : C = ∅ := Finset.card_eq_zero.mp (by omega)
  by_contra hnone
  have hmem : fd ∈ C := (hC fd).mpr ⟨hcon, fun w hw => hnone ⟨w, hw⟩⟩
  rw [hempty] at hmem
  cases hmem

/-- A token that is not with a closing worker belongs to a counted client. -/
theorem no_token_of_zero (hi : Inv d s) (hc : Counted s) (h : s.counted = 0) (fd : Nat) :
    s.queued fd + s.piped fd = 0 ∧ (fd ∉ d.own → fd ∉ s.set) := by
  by_cases hown : fd ∈ d.own
  · have hnone := (hi.own fd hown).2
    exact ⟨by omega, fun hnot => absurd hown hnot⟩
  · have htoken := hi.token fd hown
    by_cases hcon : s.connected fd = true
    · obtain ⟨w, hw⟩ := closing_of_zero hc h hcon
      have hheld : 0 < s.held fd := held_pos (w := w) (by rw [hw]; rfl)
      rw [if_pos hcon] at htoken
      unfold State.tokens at htoken
      refine ⟨by omega, fun _ hset => ?_⟩
      rw [if_pos hset] at htoken
      omega
    · rw [if_neg hcon] at htoken
      unfold State.tokens at htoken
      refine ⟨by omega, fun _ hset => ?_⟩
      rw [if_pos hset] at htoken
      omega

theorem quiescent_of_zero (hi : Inv d s) (hc : Counted s) (hm : s.main.counting = false)
    (h : s.nclient = 0) : Quiescent d s := by
  have hzero : s.counted = 0 := (counted_of_not hm).trans h
  -- nobody has a client in hand that is not counted out
  have nobody : ∀ w fd, (s.workers w).fd? = some fd → s.workers w = .closing fd := by
    intro w fd hw
    by_contra hne
    have hpos := in_hand_pos hi hc hm hw hne
    omega
  refine ⟨h, ?_, ?_, fun w rq hw => ?_, fun w fd n hw => ?_,
    fun fd hcon => closing_of_zero hc hzero hcon, fun fd hset => ?_⟩
  · rw [List.eq_nil_iff_forall_not_mem]
    intro rq hrq
    have hpos : 0 < s.queued rq.fd := List.count_pos_iff.mpr (List.mem_map_of_mem hrq)
    have hnone := (no_token_of_zero hi hc hzero rq.fd).1
    omega
  · rw [List.eq_nil_iff_forall_not_mem]
    intro fd hfd
    have hpos : 0 < s.piped fd := List.count_pos_iff.mpr hfd
    have hnone := (no_token_of_zero hi hc hzero fd).1
    omega
  · cases hw.symm.trans (nobody w rq.fd (by rw [hw]; rfl))
  · cases hw.symm.trans (nobody w fd (by rw [hw]; rfl))
  · by_cases hown : fd ∈ d.own
    · exact hi.watchedOwn fd hset hown
    · exact absurd hset ((no_token_of_zero hi hc hzero fd).2 hown)

/-- **SIGHUP stops `main` only when nobody is waiting for anything**, and nobody
is in any state after that, in every run that loses no update of `nclient` and whose
calls of `accept` succeed with a number below `FD_SETSIZE`. -/
theorem hup_waits_for_clients (d : Descriptors) (N : Nat) (s : State N)
    (h : Reach (step d) (fun s l => (fits d s l && undisturbed s l) = true) (init d N) s)
    (hstop : s.main = .stopped) (hint : s.sigINT = false) : Quiescent d s := by
  have ho : Orderly d s := by
    refine h.invariant (Orderly d) (orderly_init d N) fun s l t hi hg hs => ?_
    obtain ⟨hf, hu⟩ := Bool.and_eq_true_iff.mp hg
    exact orderly_step hi hf hu hs
  rcases ho.ended hstop with hyes | ⟨-, hzero⟩
  · rw [hint] at hyes
    cases hyes
  · exact quiescent_of_zero ho.inv ho.counted (by rw [hstop]; rfl) hzero

/-- A client connects, SIGHUP comes, and `main` stops while a worker is about to
close the connection. -/
theorem hup_waits_for_clients_one :
    ∃ s : State 2,
      Reach (step atStart) (fun s l => (fits atStart s l && undisturbed s l) = true)
        (init atStart 2) s ∧
      s.connected 11 = true ∧ s.workers 1 = .closing 11 ∧ Quiescent atStart s := by
  obtain ⟨s, hr, hp⟩ := Reach.of_guarded_test (step atStart)
    (fun s l => fits atStart s l && undisturbed s l) (init atStart 2)
    (List.flatten [connects (some 11) 4, onePass {4}, onePass {11},
      [.pop 1, .leave 1, .leave 1, .select ∅]])
    (fun s => s.connected 11 && s.workers 1 == .closing 11 && s.main == .stopped && !s.sigINT)
    (by decide +kernel)
  simp only [Bool.and_eq_true, beq_iff_eq, Bool.not_eq_true'] at hp
  obtain ⟨⟨⟨hcon, hw⟩, hstop⟩, hint⟩ := hp
  exact ⟨s, hr, hcon, hw, hup_waits_for_clients atStart 2 s hr hstop hint⟩

/-- A worker has read `nclient`, to count one client out, when `main` counts the next one
in; the worker's store takes that back. Then SIGHUP comes, and `main` stops under the
second client. -/
theorem hup_stops_early :
    ∃ s : State 2, Reach (step atStart) anyStep (init atStart 2) s ∧ s.main = .stopped ∧
      s.sigINT = false ∧ s.connected 12 = true ∧ 12 ∈ s.set := by
  obtain ⟨s, hr, hp⟩ := Reach.of_run_test (step atStart) (init atStart 2)
    (List.flatten [connects (some 11) 4, onePass {11}, [.pop 1, .leave 1],
      connects (some 12) 5, [.leave 1, .close 1], onePass {4}, [.visit none true, .select ∅]])
    (fun s => s.main == .stopped && !s.sigINT && s.connected 12 && decide (12 ∈ s.set))
    (by decide +kernel)
  simp only [Bool.and_eq_true, beq_iff_eq, Bool.not_eq_true', decide_eq_true_eq] at hp
  exact ⟨s, hr, hp.1.1.1, hp.1.1.2, hp.1.2, hp.2⟩

end FileStorage.Dispatcher
