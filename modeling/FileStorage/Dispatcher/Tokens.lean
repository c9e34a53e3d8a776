import FileStorage.Dispatcher.Steps
import FileStorage.Lib.Run
import Mathlib.Algebra.BigOperators.Group.Finset.Piecewise

/-!
# One token for each client

The descriptor of a connected client is a token. It lies in the watched set, in
a queued request, with a worker, or in the pipe, and every step of `main` or of
a worker takes it from one of these places to the next. `tokens s fd` counts
it over all four. `Inv` says that the count is one for a connected descriptor
and zero for any other number that is not the server's own, so that a number
the kernel hands out again starts from zero. It is kept as long as `accept`
succeeds with a number that has a bit in the set (`fits`).

The rest of `Inv` is what `main` needs to keep this true: the pipe ends stay
watched, which is why `updatemax` always finds something; `fd_max` is the
maximum of the watched set; and what is left to visit of the stale snapshot is
still watched, because during a pass only the visited descriptor leaves the
set. The steps of the workers do not touch the set, so each of them is the
movement of one token (`inv_move`, `inv_close`).

Nobody checks what `accept` returns. A failed one makes `main` watch the
descriptor 63, whoever has it, and a client whose number is not below
`FD_SETSIZE` is never watched (`accepted_outside_set`).
-/

namespace FileStorage.Dispatcher

open FileStorage.Lib

variable {N : Nat} {d : Descriptors}

/-! ## Counting -/

/-- The descriptor a worker is busy with. -/
def Worker.fd? : Worker → Option Nat
  | .idle => none
  | .serving rq => some rq.fd
  | .leaving fd _ => some fd
  | .closing fd => some fd

/-- How many workers hold the descriptor. -/
def State.held (s : State N) (fd : Nat) : Nat :=
  (Finset.univ.filter fun w => (s.workers w).fd? = some fd).card

/-- How often the queued requests name the descriptor. -/
def State.queued (s : State N) (fd : Nat) : Nat := (s.queue.map Req.fd).count fd

def State.piped (s : State N) (fd : Nat) : Nat := s.inPipe.count fd

/-- How often the descriptor occurs in the four places together. -/
def State.tokens (s : State N) (fd : Nat) : Nat :=
  (if fd ∈ s.set then 1 else 0) + s.queued fd + s.held fd + s.piped fd

theorem held_of_workers_eq {s t : State N} (h : t.workers = s.workers) (fd : Nat) :
    t.held fd = s.held fd := by
  unfold State.held
  rw [h]

/-- Giving a worker something else to do moves what it held. -/
theorem held_update {s t : State N} {w : Fin N} {x : Worker}
    (h : t.workers = Function.update s.workers w x) (fd : Nat) :
    t.held fd + (if (s.workers w).fd? = some fd then 1 else 0) =
      s.held fd + (if x.fd? = some fd then 1 else 0) := by
  have hw : t.workers w = x := by rw [h, Function.update_self]
  simp only [State.held, Finset.card_filter]
  rw [← hw]
  refine sum_change (f := fun v => if (s.workers v).fd? = some fd then 1 else 0)
    (g := fun v => if (t.workers v).fd? = some fd then 1 else 0) (Finset.mem_univ w) fun v _ hv => ?_
  rw [h, Function.update_of_ne hv]

/-- What a worker holds is counted. -/
theorem held_pos {s : State N} {w : Fin N} {fd : Nat} (h : (s.workers w).fd? = some fd) :
    0 < s.held fd :=
  Finset.card_pos.mpr ⟨w, Finset.mem_filter.mpr ⟨Finset.mem_univ w, h⟩⟩

/-! ## The maximum of the watched set -/

theorem updatemax_max {set : Finset Nat} {n x : Nat} (hmem : x ∈ set) (hx : x < n) :
    ∃ m, updatemax set n = some m ∧ m ∈ set ∧ m < n ∧ ∀ y ∈ set, y < n → y ≤ m := by
  induction n with
  | zero => omega
  | succ n ih =>
    unfold updatemax
    split
    · next hn => exact ⟨n, rfl, hn, Nat.lt_succ_self n, fun y _ hy => Nat.lt_succ_iff.mp hy⟩
    · next hn =>
      have below : ∀ {y : Nat}, y ∈ set → y < n + 1 → y < n := by
        intro y hy hlt
        rcases Nat.lt_succ_iff_lt_or_eq.mp hlt with h | rfl
        · exact h
        · exact absurd hy hn
      obtain ⟨m, hm, hms, hlt, hmax⟩ := ih (below hmem hx)
      exact ⟨m, hm, hms, Nat.lt_succ_of_lt hlt, fun y hy hlt' => hmax y hy (below hy hlt')⟩

/-- `fd_max` is the maximum of the set. -/
def State.MaxOk (s : State N) : Prop := s.fdMax ∈ s.set ∧ ∀ fd ∈ s.set, fd ≤ s.fdMax

theorem watch_set {s : State N} {fd : Nat} (h : fd < fdSetSize) :
    (s.watch fd).set = insert fd s.set := fdSet_eq h s.set

theorem maxOk_watch {s : State N} (h : s.MaxOk) {fd : Nat} (hfd : fd < fdSetSize) :
    (s.watch fd).MaxOk := by
  obtain ⟨hmem, hle⟩ := h
  unfold State.MaxOk
  rw [watch_set hfd]
  refine ⟨?_, fun x hx => ?_⟩
  · show max s.fdMax fd ∈ insert fd s.set
    rcases Nat.le_total s.fdMax fd with h | h
    · rw [Nat.max_eq_right h]
      exact Finset.mem_insert_self _ _
    · rw [Nat.max_eq_left h]
      exact Finset.mem_insert_of_mem hmem
  · show x ≤ max s.fdMax fd
    rcases Finset.mem_insert.mp hx with rfl | hx
    · exact Nat.le_max_right _ _
    · exact Nat.le_trans (hle x hx) (Nat.le_max_left _ _)

/-- Taking one descriptor out of a set that keeps another one: the assert of
`updatemax` holds and the new bound is the maximum. -/
theorem maxOk_erase {s : State N} (h : s.MaxOk) {fd x : Nat} (hx : x ∈ s.set) (hne : x ≠ fd) :
    ∃ m, (if fd = s.fdMax then updatemax (s.set.erase fd) s.fdMax else some s.fdMax) = some m ∧
      m ∈ s.set.erase fd ∧ ∀ y ∈ s.set.erase fd, y ≤ m := by
  obtain ⟨hmem, hle⟩ := h
  split
  · next heq =>
    have below : ∀ y ∈ s.set.erase fd, y < s.fdMax := by
      intro y hy
      obtain ⟨hy, hys⟩ := Finset.mem_erase.mp hy
      exact lt_of_le_of_ne (hle y hys) (heq ▸ hy)
    have hx' : x ∈ s.set.erase fd := Finset.mem_erase.mpr ⟨hne, hx⟩
    obtain ⟨m, hm, hms, -, hmax⟩ := updatemax_max hx' (below x hx')
    exact ⟨m, hm, hms, fun y hy => hmax y hy (below y hy)⟩
  · next hne' =>
    exact ⟨s.fdMax, rfl, Finset.mem_erase.mpr ⟨fun h => hne' h.symm, hmem⟩,
      fun y hy => hle y (Finset.mem_of_mem_erase hy)⟩

/-! ## The invariant -/

/-- What the pass is still to visit of its snapshot. -/
def MainPc.rest : MainPc → Finset Nat
  | .pass fd tmpset => tmpset.filter (fd ≤ ·)
  | .load fd tmpset | .store fd tmpset _ => tmpset.filter (fd + 1 ≤ ·)
  | _ => ∅

/-- Where the tokens are, and what `main` keeps watched. -/
structure Inv (d : Descriptors) (s : State N) : Prop where
  token : ∀ fd, fd ∉ d.own → s.tokens fd = if s.connected fd then 1 else 0
  own : ∀ fd ∈ d.own, s.connected fd = false ∧ s.queued fd + s.held fd + s.piped fd = 0
  watchedOwn : ∀ fd ∈ s.set, fd ∈ d.own → fd ∈ d.watched
  pipes : d.pipe ∈ s.set ∧ d.sighup ∈ s.set ∧ d.sigint ∈ s.set
  listening : s.main ≠ .exited → d.server ∈ s.set
  max : s.MaxOk
  bits : ∀ fd, s.connected fd = true → fd < fdSetSize
  snapshot : s.main.rest ⊆ s.set
  asserted : s.main ≠ .aborted

theorem Descriptors.own_of_watched {fd : Nat} (h : fd ∈ d.watched) : fd ∈ d.own := by
  simp only [Descriptors.watched, Finset.mem_insert, Finset.mem_singleton] at h
  rcases h with rfl | rfl | rfl | rfl
  · exact d.server_own
  · exact d.pipe_own
  · exact d.sighup_own
  · exact d.sigint_own

/-- `main` starts with its four descriptors. -/
theorem init_set (d : Descriptors) (N : Nat) : (init d N).set = d.watched := by
  have hbits : ∀ fd ∈ d.own, ∀ set : Finset Nat, fdSet set (some fd) = insert fd set :=
    fun fd hfd set => fdSet_eq (d.small fd hfd) set
  show fdSet (fdSet (fdSet (fdSet ∅ (some d.server)) (some d.pipe)) (some d.sighup))
    (some d.sigint) = d.watched
  rw [hbits _ d.server_own, hbits _ d.pipe_own, hbits _ d.sighup_own, hbits _ d.sigint_own]
  ext fd
  simp only [Descriptors.watched, Finset.mem_insert, Finset.mem_singleton, Finset.notMem_empty]
  tauto

theorem inv_init (d : Descriptors) (N : Nat) : Inv d (init d N) where
  token fd hfd := by
    have hw : fd ∉ (init d N).set := by
      rw [init_set]
      exact fun h => hfd (d.own_of_watched h)
    unfold State.tokens
    rw [if_neg hw]
    simp [State.queued, State.held, State.piped, init, Worker.fd?]
  own fd _ := by simp [State.queued, State.held, State.piped, init, Worker.fd?]
  watchedOwn fd h _ := by rwa [init_set] at h
  pipes := by simp [init_set, Descriptors.watched]
  listening _ := by simp [init_set, Descriptors.watched]
  max := by
    unfold State.MaxOk
    rw [init_set]
    refine ⟨?_, fun fd hfd => ?_⟩
    · simp only [init, Descriptors.watched, Finset.mem_insert, Finset.mem_singleton]
      omega
    · simp only [init, Descriptors.watched, Finset.mem_insert, Finset.mem_singleton] at hfd ⊢
      omega
  bits _ h := by cases h
  snapshot := Finset.empty_subset _
  asserted h := by cases h

/-- A descriptor that is queued, held or in the pipe belongs to a connected
client and is in no second place. -/
theorem Inv.away {s : State N} (h : Inv d s) {fd : Nat}
    (hpos : 0 < s.queued fd + s.held fd + s.piped fd) :
    fd ∉ d.own ∧ s.connected fd = true ∧ fd ∉ s.set ∧
      s.queued fd + s.held fd + s.piped fd = 1 := by
  have hown : fd ∉ d.own := fun ho => by
    have := (h.own fd ho).2
    omega
  have ht := h.token fd hown
  unfold State.tokens at ht
  cases hc : s.connected fd <;> by_cases hs : fd ∈ s.set <;>
    simp only [hc, hs, if_true, if_false, Bool.false_eq_true] at ht
  · omega
  · omega
  · omega
  · exact ⟨hown, rfl, hs, by omega⟩

/-- A watched descriptor that is not the server's own belongs to a connected
client that is nowhere else. -/
theorem Inv.waiting {s : State N} (h : Inv d s) {fd : Nat} (hs : fd ∈ s.set)
    (hown : fd ∉ d.own) :
    s.connected fd = true ∧ s.queued fd + s.held fd + s.piped fd = 0 := by
  have ht := h.token fd hown
  unfold State.tokens at ht
  cases hc : s.connected fd <;> simp only [hc, hs, if_true, if_false, Bool.false_eq_true] at ht
  · omega
  · exact ⟨rfl, by omega⟩

/-- A number that is nobody's is in none of the places. -/
theorem Inv.unused {s : State N} (h : Inv d s) {fd : Nat} (hcon : s.connected fd = false)
    (hown : fd ∉ d.own) : fd ∉ s.set ∧ s.queued fd + s.held fd + s.piped fd = 0 := by
  have ht := h.token fd hown
  unfold State.tokens at ht
  by_cases hs : fd ∈ s.set <;> simp only [hcon, hs, if_true, if_false, Bool.false_eq_true] at ht
  · omega
  · exact ⟨hs, by omega⟩

/-! ## The steps of a worker -/

/-- A step that leaves `main` and the set alone and moves no descriptor out of
the queue, the workers and the pipe. -/
theorem inv_move {s t : State N} (h : Inv d s) (hmain : t.main = s.main) (hset : t.set = s.set)
    (hmax : t.fdMax = s.fdMax) (hcon : t.connected = s.connected)
    (hsum : ∀ fd, t.queued fd + t.held fd + t.piped fd = s.queued fd + s.held fd + s.piped fd) :
    Inv d t where
  token fd hfd := by
    have ht := h.token fd hfd
    have := hsum fd
    unfold State.tokens at ht ⊢
    rw [hset, hcon]
    omega
  own fd hfd := by
    rw [hcon, hsum]
    exact h.own fd hfd
  watchedOwn := by rw [hset]; exact h.watchedOwn
  pipes := by rw [hset]; exact h.pipes
  listening := by rw [hset, hmain]; exact h.listening
  max := by
    unfold State.MaxOk
    rw [hset, hmax]
    exact h.max
  bits := by rw [hcon]; exact h.bits
  snapshot := by rw [hset, hmain]; exact h.snapshot
  asserted := by rw [hmain]; exact h.asserted

/-- Closing the descriptor of a finished client takes its only token away. -/
theorem inv_close {s t : State N} {w : Fin N} {fd : Nat} (h : Inv d s)
    (hw : s.workers w = .closing fd)
    (ht : t = { s.setWorker w .idle with connected := Function.update s.connected fd false }) :
    Inv d t := by
  -- one worker less has the descriptor
  have hheld : ∀ x, t.held x + (if fd = x then 1 else 0) = s.held x := by
    intro x
    have := held_update (s := s) (t := t) (w := w) (x := .idle) (by rw [ht]; rfl) x
    rw [hw] at this
    simpa [Worker.fd?] using this
  have hpos : 0 < s.queued fd + s.held fd + s.piped fd := by
    have : 0 < s.held fd := held_pos (w := w) (by rw [hw]; rfl)
    omega
  -- it was its only token
  obtain ⟨hown, hcon, hset, hone⟩ := h.away hpos
  have hq : t.queued = s.queued := by rw [ht]; rfl
  have hp : t.piped = s.piped := by rw [ht]; rfl
  have hc : t.connected = Function.update s.connected fd false := by rw [ht]
  have hs : t.set = s.set := by rw [ht]; rfl
  have hm : t.main = s.main := by rw [ht]; rfl
  refine ⟨fun x hx => ?_, fun x hx => ?_, ?_, ?_, ?_, ?_, fun x hx => ?_, ?_, ?_⟩
  · have htok := h.token x hx
    have hx' := hheld x
    unfold State.tokens at htok ⊢
    rw [hq, hp, hc, hs]
    by_cases he : x = fd
    · subst he
      rw [if_neg hset, Function.update_self]
      rw [if_pos rfl] at hx'
      simp only [Bool.false_eq_true, if_false]
      omega
    · rw [Function.update_of_ne he]
      rw [if_neg (Ne.symm he)] at hx'
      omega
  · have hne : x ≠ fd := fun he => hown (he ▸ hx)
    have hx' := hheld x
    rw [if_neg (Ne.symm hne)] at hx'
    obtain ⟨hcx, hsum⟩ := h.own x hx
    rw [hq, hp, hc, Function.update_of_ne hne]
    exact ⟨hcx, by omega⟩
  · rw [hs]; exact h.watchedOwn
  · rw [hs]; exact h.pipes
  · rw [hs, hm]; exact h.listening
  · have hf : t.fdMax = s.fdMax := by rw [ht]; rfl
    unfold State.MaxOk
    rw [hs, hf]
    exact h.max
  · refine h.bits x ?_
    rw [hc] at hx
    by_cases he : x = fd
    · rw [he, Function.update_self] at hx
      cases hx
    · rwa [Function.update_of_ne he] at hx
  · rw [hs, hm]; exact h.snapshot
  · rw [hm]; exact h.asserted

/-! ## The steps of `main` -/

/-- A step that only moves `main` on. -/
theorem inv_goto {s t : State N} (h : Inv d s) (hset : t.set = s.set) (hmax : t.fdMax = s.fdMax)
    (hcon : t.connected = s.connected) (hq : t.queued = s.queued) (hw : t.held = s.held)
    (hp : t.piped = s.piped) (hrun : s.main ≠ .exited) (hok : t.main ≠ .aborted)
    (hrest : t.main.rest ⊆ s.set) : Inv d t where
  token fd hfd := by
    unfold State.tokens
    rw [hset, hcon, hq, hw, hp]
    exact h.token fd hfd
  own fd hfd := by
    rw [hcon, hq, hw, hp]
    exact h.own fd hfd
  watchedOwn := by rw [hset]; exact h.watchedOwn
  pipes := by rw [hset]; exact h.pipes
  listening _ := by rw [hset]; exact h.listening hrun
  max := by
    unfold State.MaxOk
    rw [hset, hmax]
    exact h.max
  bits := by rw [hcon]; exact h.bits
  snapshot := by rw [hset]; exact hrest
  asserted := hok

theorem rest_succ (fd : Nat) (tmpset : Finset Nat) :
    (MainPc.pass (fd + 1) tmpset).rest ⊆ (MainPc.pass fd tmpset).rest :=
  Finset.monotone_filter_right tmpset fun _ _ h => Nat.le_of_succ_le h

/-- What is still to visit after the visited descriptor. -/
theorem Inv.rest {s : State N} (h : Inv d s) {fd : Nat} {tmpset : Finset Nat}
    (hm : s.main = .pass fd tmpset) : (MainPc.pass (fd + 1) tmpset).rest ⊆ s.set := by
  have hs := h.snapshot
  rw [hm] at hs
  exact (rest_succ fd tmpset).trans hs

/-- A descriptor that the pass comes to is still watched. -/
theorem Inv.ready {s : State N} (h : Inv d s) {fd : Nat} {tmpset : Finset Nat}
    (hm : s.main = .pass fd tmpset) (hmem : fd ∈ tmpset) : fd ∈ s.set := by
  refine h.snapshot ?_
  rw [hm]
  exact Finset.mem_filter.mpr ⟨hmem, Nat.le_refl fd⟩

/-- A client's descriptor enters the watched set, either because `accept`
returned it or because a worker gave it back. -/
theorem inv_watch {s t : State N} (h : Inv d s) {x : Nat} (hrun : s.main ≠ .exited)
    (hset : t.set = insert x s.set) (hmax : t.fdMax = max s.fdMax x)
    (hrest : t.main.rest ⊆ s.set) (hok : t.main ≠ .aborted) (hbit : x < fdSetSize)
    (hx : x ∉ d.own) (hone : t.tokens x = 1) (hcon : t.connected x = true)
    (hothers : ∀ y, y ≠ x → t.connected y = s.connected y ∧
      t.queued y + t.held y + t.piped y = s.queued y + s.held y + s.piped y) :
    Inv d t where
  token y hy := by
    by_cases he : y = x
    · subst he
      rw [hone, hcon]
      rfl
    · have ht := h.token y hy
      obtain ⟨hc, hsum⟩ := hothers y he
      have hmem : y ∈ t.set ↔ y ∈ s.set := by simp [hset, he]
      unfold State.tokens at ht ⊢
      simp only [hmem, hc]
      omega
  own y hy := by
    obtain ⟨hc, hsum⟩ := hothers y (fun he => hx (he ▸ hy))
    rw [hc, hsum]
    exact h.own y hy
  watchedOwn y hy hown := by
    rw [hset] at hy
    rcases Finset.mem_insert.mp hy with rfl | hy
    · exact absurd hown hx
    · exact h.watchedOwn y hy hown
  pipes := by
    rw [hset]
    exact ⟨Finset.mem_insert_of_mem h.pipes.1, Finset.mem_insert_of_mem h.pipes.2.1,
      Finset.mem_insert_of_mem h.pipes.2.2⟩
  listening _ := by
    rw [hset]
    exact Finset.mem_insert_of_mem (h.listening hrun)
  max := by
    have hwatch := maxOk_watch h.max hbit
    unfold State.MaxOk at hwatch ⊢
    rw [watch_set hbit] at hwatch
    rw [hset, hmax]
    exact hwatch
  bits y hy := by
    by_cases he : y = x
    · rw [he]
      exact hbit
    · rw [(hothers y he).1] at hy
      exact h.bits y hy
  snapshot := by
    rw [hset]
    exact hrest.trans (Finset.subset_insert x s.set)
  asserted := hok

theorem inv_accept {s : State N} (h : Inv d s) {fd : Nat} {tmpset : Finset Nat} {x : Nat}
    (hm : s.main = .pass fd tmpset) (hc : s.connected x = false) (hx : x ∉ d.own)
    (hbit : x < fdSetSize) :
    Inv d { s.watch x with
      connected := Function.update s.connected x true
      main := .load fd tmpset } := by
  obtain ⟨hset, hnone⟩ := h.unused hc hx
  refine inv_watch h (by rw [hm]; exact MainPc.noConfusion) (watch_set hbit) rfl (h.rest hm)
    MainPc.noConfusion hbit hx ?_ (Function.update_self x true s.connected) ?_
  · show (if x ∈ (s.watch x).set then 1 else 0) + s.queued x + s.held x + s.piped x = 1
    rw [watch_set hbit, if_pos (Finset.mem_insert_self x s.set)]
    omega
  · intro y hy
    exact ⟨Function.update_of_ne hy _ _, rfl⟩

/-- Reading the pipe moves its oldest descriptor into the set. -/
theorem inv_return {s : State N} (h : Inv d s) {fd : Nat} {tmpset : Finset Nat} {x : Nat}
    {rest : List Nat} (hm : s.main = .pass fd tmpset) (hp : s.inPipe = x :: rest) :
    Inv d { s.watch x with inPipe := rest, main := .pass (fd + 1) tmpset } := by
  -- the pipe has one token of `x` less
  have hcount : ∀ y, s.piped y = rest.count y + if x = y then 1 else 0 := by
    intro y
    unfold State.piped
    rw [hp, List.count_cons]
    simp only [beq_iff_eq]
  have hx := hcount x
  rw [if_pos rfl] at hx
  have hpos : 0 < s.queued x + s.held x + s.piped x := by omega
  obtain ⟨hown, hcon, hset, hone⟩ := h.away hpos
  have hbit := h.bits x hcon
  refine inv_watch h (by rw [hm]; exact MainPc.noConfusion) (watch_set hbit) rfl (h.rest hm)
    MainPc.noConfusion hbit hown ?_ hcon ?_
  · show (if x ∈ (s.watch x).set then 1 else 0) + s.queued x + s.held x + rest.count x = 1
    rw [watch_set hbit, if_pos (Finset.mem_insert_self x s.set)]
    omega
  · intro y hy
    have := hcount y
    rw [if_neg (Ne.symm hy)] at this
    refine ⟨rfl, ?_⟩
    show s.queued y + s.held y + rest.count y = s.queued y + s.held y + s.piped y
    omega

/-- The client branch: the descriptor leaves the set and its request enters the
queue; for the listening socket the process exits instead. -/
theorem inv_request {s t : State N} (h : Inv d s) {fd : Nat} {tmpset : Finset Nat}
    {close : Bool} (hm : s.main = .pass fd tmpset) (hset : fd ∈ s.set) (hpipe : fd ≠ d.pipe)
    (hhup : fd ≠ d.sighup) (hint : fd ≠ d.sigint)
    (ht : request s fd close (.pass (fd + 1) tmpset) = t) : Inv d t := by
  -- the pipe is still watched, so `updatemax` finds a maximum
  obtain ⟨m, hmax, hmem, hle⟩ := maxOk_erase h.max h.pipes.1 (Ne.symm hpipe)
  unfold request at ht
  simp only [hmax] at ht
  have pipes : d.pipe ∈ s.set.erase fd ∧ d.sighup ∈ s.set.erase fd ∧ d.sigint ∈ s.set.erase fd :=
    ⟨Finset.mem_erase.mpr ⟨Ne.symm hpipe, h.pipes.1⟩,
      Finset.mem_erase.mpr ⟨Ne.symm hhup, h.pipes.2.1⟩,
      Finset.mem_erase.mpr ⟨Ne.symm hint, h.pipes.2.2⟩⟩
  split at ht
  · next hcon =>
    subst ht
    -- a client: its token goes from the set to the queue
    have hown : fd ∉ d.own := fun ho => Bool.noConfusion ((h.own fd ho).1.symm.trans hcon)
    have hsrv : fd ≠ d.server := fun he => hown (he ▸ d.server_own)
    have hnone := (h.waiting hset hown).2
    have hq : ∀ y, ((s.queue ++ [(⟨fd, close⟩ : Req)]).map Req.fd).count y =
        s.queued y + if fd = y then 1 else 0 := by
      intro y
      simp [State.queued, List.count_singleton]
    refine ⟨fun y hy => ?_, fun y hy => ?_,
      fun y hy => h.watchedOwn y (Finset.mem_of_mem_erase hy), pipes, fun _ => ?_, ⟨hmem, hle⟩,
      h.bits, fun y hy => ?_, MainPc.noConfusion⟩
    · have htok := h.token y hy
      have hqy := hq y
      show (if y ∈ s.set.erase fd then 1 else 0) +
        ((s.queue ++ [(⟨fd, close⟩ : Req)]).map Req.fd).count y + s.held y + s.piped y = _
      unfold State.tokens at htok
      by_cases he : y = fd
      · subst he
        rw [if_pos rfl] at hqy
        rw [if_neg (Finset.notMem_erase y s.set), ← htok, if_pos hset]
        omega
      · rw [if_neg (Ne.symm he)] at hqy
        have hmem' : y ∈ s.set.erase fd ↔ y ∈ s.set := by simp [he]
        simp only [hmem']
        omega
    · obtain ⟨hc, hsum⟩ := h.own y hy
      have hne : fd ≠ y := fun he => hown (he ▸ hy)
      have hqy := hq y
      rw [if_neg hne] at hqy
      refine ⟨hc, ?_⟩
      show ((s.queue ++ [(⟨fd, close⟩ : Req)]).map Req.fd).count y + s.held y + s.piped y = 0
      omega
    · exact Finset.mem_erase.mpr ⟨Ne.symm hsrv, h.listening (by rw [hm]; exact MainPc.noConfusion)⟩
    · have hlt := (Finset.mem_filter.mp hy).2
      exact Finset.mem_erase.mpr ⟨by omega, h.rest hm hy⟩
  · next hcon =>
    subst ht
    -- the listening socket: nothing is queued, and the process exits
    have hown : fd ∈ d.own := by
      by_contra hno
      exact hcon (h.waiting hset hno).1
    have herase : ∀ y, y ∉ d.own → (y ∈ s.set.erase fd ↔ y ∈ s.set) := by
      intro y hy
      have hne : y ≠ fd := fun he => hy (he ▸ hown)
      simp [hne]
    refine ⟨fun y hy => ?_, h.own, fun y hy => h.watchedOwn y (Finset.mem_of_mem_erase hy), pipes,
      fun hne => absurd rfl hne, ⟨hmem, hle⟩, h.bits, Finset.empty_subset _, MainPc.noConfusion⟩
    have htok := h.token y hy
    unfold State.tokens at htok ⊢
    simp only [herase y hy]
    exact htok

/-- What is watched is open, so `select` does not fail. -/
theorem Inv.isOpen {s : State N} (h : Inv d s) {fd : Nat} (hset : fd ∈ s.set) :
    s.isOpen d fd = true := by
  by_contra hno
  obtain ⟨hcon, hown⟩ := isOpen_eq_false.mp (Bool.not_eq_true _ ▸ hno)
  exact (h.unused hcon hown).1 hset

theorem inv_select {s t : State N} {ready : Finset Nat} (h : Inv d s) (hm : s.main = .top)
    (ht : select d s ready = some t) : Inv d t := by
  have hrun : s.main ≠ .exited := by rw [hm]; exact MainPc.noConfusion
  rcases select_eq ht with ⟨-, rfl⟩ | ⟨⟨fd, hset, hclosed⟩, -⟩ | ⟨hready, rfl⟩
  · exact inv_goto h rfl rfl rfl rfl rfl rfl hrun MainPc.noConfusion (Finset.empty_subset _)
  · exact absurd (h.isOpen hset) (Bool.not_eq_true _ ▸ hclosed)
  · exact inv_goto h rfl rfl rfl rfl rfl rfl hrun MainPc.noConfusion
      ((Finset.filter_subset _ _).trans hready)

theorem inv_visit {s t : State N} {fd : Nat} {tmpset : Finset Nat} {accepted : Option Nat}
    {close : Bool} (h : Inv d s) (hm : s.main = .pass fd tmpset)
    (hfits : fits d s (.visit accepted close) = true)
    (ht : visit d s fd tmpset accepted close = some t) : Inv d t := by
  have hrun : s.main ≠ .exited := by rw [hm]; exact MainPc.noConfusion
  -- the visits that change none of the four places
  have on : ∀ u : State N, u.set = s.set → u.fdMax = s.fdMax → u.connected = s.connected →
      u.queue = s.queue → u.workers = s.workers → u.inPipe = s.inPipe →
      u.main = .pass (fd + 1) tmpset → Inv d u := by
    intro u hset hmax hcon hq hw hp hmain
    refine inv_goto h hset hmax hcon ?_ (funext (held_of_workers_eq hw)) ?_ hrun
      (by rw [hmain]; exact MainPc.noConfusion) ?_
    · funext x
      unfold State.queued
      rw [hq]
    · funext x
      unfold State.piped
      rw [hp]
    · rw [hmain]
      exact h.rest hm
  cases visited ht with
  | done =>
    exact inv_goto h rfl rfl rfl rfl rfl rfl hrun MainPc.noConfusion (Finset.empty_subset _)
  | skip => exact on _ rfl rfl rfl rfl rfl rfl rfl
  | failed bound ready server result =>
    simp [fits, accepting_of_visit hm bound ready server, result] at hfits
  | accept bound ready server result free notOwn =>
    simp only [fits, accepting_of_visit hm bound ready server, result, Bool.not_true, Bool.false_or,
      Option.any_some, decide_eq_true_eq] at hfits
    exact inv_accept h hm free notOwn hfits
  | back _ _ piped => exact inv_return h hm piped
  | sigint => exact on _ rfl rfl rfl rfl rfl rfl rfl
  | sighup => exact on _ rfl rfl rfl rfl rfl rfl rfl
  | request _ ready _ pipe int hup =>
    exact inv_request h hm (h.ready hm ready) pipe hup int rfl

/-- Counting a client in moves no descriptor. -/
theorem inv_count {s t : State N} (h : Inv d s) (ht : step d s .count = some t) : Inv d t := by
  simp only [step] at ht
  split at ht
  · next fd tmpset hm =>
    cases ht
    have hrun : s.main ≠ .exited := by rw [hm]; exact MainPc.noConfusion
    refine inv_goto h rfl rfl rfl rfl rfl rfl hrun MainPc.noConfusion ?_
    have hs := h.snapshot
    rw [hm] at hs
    exact hs
  · next fd tmpset nclient hm =>
    cases ht
    have hrun : s.main ≠ .exited := by rw [hm]; exact MainPc.noConfusion
    refine inv_goto h rfl rfl rfl rfl rfl rfl hrun MainPc.noConfusion ?_
    have hs := h.snapshot
    rw [hm] at hs
    exact hs
  · cases ht

/-! ## Runs -/

theorem inv_step {s t : State N} {l : Label N} (h : Inv d s) (hfits : fits d s l = true)
    (ht : step d s l = some t) : Inv d t := by
  cases l with
  | select ready =>
    simp only [step] at ht
    split at ht
    · next hm => exact inv_select h hm ht
    · cases ht
  | visit accepted close =>
    simp only [step] at ht
    split at ht
    · next fd tmpset hm => exact inv_visit h hm hfits ht
    · cases ht
  | count => exact inv_count h ht
  | pop w =>
    obtain ⟨rq, queue, hw, hq, rfl⟩ := pop_cases ht
    refine inv_move h rfl rfl rfl rfl fun fd => ?_
    have := held_update (s := s) (t := { s.setWorker w (.serving rq) with queue := queue })
      (w := w) (x := .serving rq) rfl fd
    rw [hw] at this
    simp only [Worker.fd?, State.queued, State.piped, Option.some.injEq, reduceCtorEq, hq,
      List.map_cons, List.count_cons, beq_iff_eq, if_false] at this ⊢
    simp only [State.setWorker] at this ⊢
    omega
  | reinsert w =>
    obtain ⟨fd, hw, rfl⟩ := reinsert_cases ht
    refine inv_move h rfl rfl rfl rfl fun x => ?_
    have := held_update (s := s) (t := { s.setWorker w .idle with inPipe := s.inPipe ++ [fd] })
      (w := w) (x := .idle) rfl x
    rw [hw] at this
    simp only [Worker.fd?, State.queued, State.piped, Option.some.injEq, reduceCtorEq,
      List.count_append, List.count_singleton, beq_iff_eq, if_false] at this ⊢
    simp only [State.setWorker] at this ⊢
    omega
  | leave w =>
    -- the descriptor stays with the worker, in either half
    have kept : ∀ {x : Worker} {u : State N}, x.fd? = (s.workers w).fd? →
        u.workers = Function.update s.workers w x → u.queue = s.queue → u.inPipe = s.inPipe →
        ∀ fd, u.queued fd + u.held fd + u.piped fd = s.queued fd + s.held fd + s.piped fd := by
      intro x u hx hu hq hp fd
      have hheld := held_update hu fd
      rw [hx] at hheld
      unfold State.queued State.piped
      rw [hq, hp]
      omega
    rcases leave_cases ht with ⟨fd, hw, rfl⟩ | ⟨fd, nclient, hw, rfl⟩
    · exact inv_move h rfl rfl rfl rfl (kept (by rw [hw]; rfl) rfl rfl rfl)
    · exact inv_move h rfl rfl rfl rfl (kept (by rw [hw]; rfl) rfl rfl rfl)
  | close w =>
    obtain ⟨fd, hw, rfl⟩ := close_cases ht
    exact inv_close h hw rfl

theorem inv_reach {s : State N}
    (h : Reach (step d) (fun s l => fits d s l = true) (init d N) s) : Inv d s :=
  h.invariant (Inv d) (inv_init d N) fun _ _ _ hi hf hs => inv_step hi hf hs

/-- **No client is lost**, in every run whose calls of `accept` succeed with a number
below `FD_SETSIZE`: a connected client's descriptor is in exactly one place and there
once, any other number that is not the server's own is in none, `fd_max` is the maximum
of the watched set, and `updatemax` has not failed. -/
theorem one_token_each (d : Descriptors) (N : Nat) (s : State N)
    (h : Reach (step d) (fun s l => fits d s l = true) (init d N) s) :
    (∀ fd, s.connected fd = true → s.tokens fd = 1) ∧
    (∀ fd, fd ∉ d.own → s.connected fd = false → s.tokens fd = 0) ∧
    (s.fdMax ∈ s.set ∧ ∀ fd ∈ s.set, fd ≤ s.fdMax) ∧
    s.main ≠ .aborted := by
  have hi := inv_reach h
  refine ⟨fun fd hc => ?_, fun fd hown hc => ?_, hi.max, hi.asserted⟩
  · have hown : fd ∉ d.own := fun ho => by
      have hno := (hi.own fd ho).1
      rw [hc] at hno
      cases hno
    rw [hi.token fd hown, hc]
    rfl
  · rw [hi.token fd hown, hc]
    rfl

/-- The numbers of a server that opens its files in the order of `main`, and that was
started with `inherited` more descriptors behind them. -/
def startedWith (inherited : Nat) (h : 11 + inherited ≤ fdSetSize) : Descriptors where
  server := 8
  pipe := 9
  sighup := 4
  sigint := 6
  own := Finset.range (11 + inherited)
  nodup := by decide
  server_own := Finset.mem_range.mpr (by omega)
  pipe_own := Finset.mem_range.mpr (by omega)
  sighup_own := Finset.mem_range.mpr (by omega)
  sigint_own := Finset.mem_range.mpr (by omega)
  small fd hfd := Nat.lt_of_lt_of_le (Finset.mem_range.mp hfd) h

/-- Nothing was open but the standard streams. -/
def atStart : Descriptors := startedWith 0 (by decide)

/-- A select and its pass; the client that is read closes its connection. -/
def onePass (ready : Finset Nat) : List (Label 2) :=
  .select ready :: List.replicate 13 (.visit none true)

/-- A pass that accepts a connection, as the number `fd`. -/
def connects (fd : Option Nat) (visits : Nat) : List (Label 2) :=
  .select {8} :: List.replicate 9 (.visit fd true) ++ [.count, .count] ++
    List.replicate visits (.visit none true)

/-- A client connects, closes its connection, and the next one gets its
number. -/
def recycled : List (Label 2) :=
  connects (some 11) 4 ++ onePass {11} ++ [.pop 1, .leave 1, .leave 1, .close 1] ++
    connects (some 11) 4

theorem one_token_each_recycled :
    ∃ s : State 2, Reach (step atStart) (fun s l => fits atStart s l = true) (init atStart 2) s ∧
      s.connected 11 = true ∧ s.tokens 11 = 1 ∧ s.fdMax ∈ s.set := by
  obtain ⟨s, hr, hc⟩ := Reach.of_guarded_test (step atStart) (fits atStart) (init atStart 2) recycled
    (fun s => s.connected 11) (by decide +kernel)
  have h := one_token_each atStart 2 s hr
  exact ⟨s, hr, hc, h.1 11 hc, h.2.2.1.1⟩

/-- `accept` fails, and `main` watches a descriptor that nobody has, beyond `fd_max`. Or
the numbers below `FD_SETSIZE` are taken, and the next client is watched nowhere. -/
theorem accepted_outside_set :
    (∃ s : State 2, Reach (step atStart) anyStep (init atStart 2) s ∧ 63 ∉ atStart.own ∧
      s.connected 63 = false ∧ s.tokens 63 = 1 ∧ 63 ∈ s.set ∧ s.fdMax < 63) ∧
    ∃ d : Descriptors, ∃ s : State 2, Reach (step d) anyStep (init d 2) s ∧
      s.connected 1024 = true ∧ s.tokens 1024 = 0 := by
  constructor
  · obtain ⟨s, hr, hp⟩ := Reach.of_run_test (step atStart) (init atStart 2) (connects none 2)
      (fun s => !s.connected 63 && s.tokens 63 == 1 && decide (63 ∈ s.set) && decide (s.fdMax < 63))
      (by decide +kernel)
    simp only [Bool.and_eq_true, Bool.not_eq_true', beq_iff_eq, decide_eq_true_eq] at hp
    exact ⟨s, hr, by decide, hp.1.1.1, hp.1.1.2, hp.1.2, hp.2⟩
  · let d := startedWith 1013 (by decide)
    obtain ⟨s, hr, hp⟩ := Reach.of_run_test (step d) (init d 2)
      (connects (some 1024) 4) (fun s => s.connected 1024 && s.tokens 1024 == 0) (by decide +kernel)
    simp only [Bool.and_eq_true, beq_iff_eq] at hp
    exact ⟨d, s, hr, hp.1, hp.2⟩

end FileStorage.Dispatcher
