import FileStorage.Dispatcher.Clients

/-!
# A pass serves what select reported

After `select`, `main` counts a descriptor from 0 up to `fd_max` and serves those
in the snapshot `tmpset`. The bound moves under the loop: an accepted connection
and a returned descriptor raise it, and taking the largest client out of the set
lowers it, while workers go on popping the queue and filling the pipe.

`Pass` records a pass from the outside: what was ready and in which state, what
`main` has pushed, taken from the pipe and accepted since, and what the workers
have written to the pipe. `pass_serves_ready`: when `main` is back at the top, it
has done exactly what was reported. Each ready client has had one request pushed,
in increasing order, and is no longer watched. If the pipe was ready, its oldest
descriptor has come back, and if the listening socket was, one connection was
accepted; these two are watched, beside whatever else was watched before. The
signal flags that are set are those that were, and those of the ready pipes.

A descriptor that is accepted or comes back within the pass was not watched
before, so it is not among those still to visit (`Ahead`).
-/

namespace FileStorage.Dispatcher

open FileStorage.Lib

variable {N : Nat} {d : Descriptors}

/-- The state with the record of the current pass; `selected` is the state in which
`select` returned. -/
structure Pass (N : Nat) where
  state : State N
  selected : State N
  ready : Finset Nat
  pushed : List Req
  returned : List Nat
  accepted : List Nat
  written : List Nat

/-- The record at the beginning of a pass. -/
def Pass.begin (s : State N) (ready : Finset Nat) : Pass N where
  state := s
  selected := s
  ready := ready
  pushed := []
  returned := []
  accepted := []
  written := []

def Pass.start (d : Descriptors) (N : Nat) : Pass N := .begin (init d N) ∅

/-- The connection that the visit accepts. -/
def newly (d : Descriptors) (s : State N) (accepted : Option Nat) : List Nat :=
  if accepting d s then accepted.toList else []

/-- The record after a visit that leads to `t`: what the queue has gained, what the pipe
has lost, and what `accept` has returned. -/
def Pass.visited (d : Descriptors) (p : Pass N) (accepted : Option Nat) (t : State N) : Pass N :=
  { p with
    state := t
    pushed := p.pushed ++ t.queue.drop p.state.queue.length
    returned := p.returned ++ p.state.inPipe.take (p.state.inPipe.length - t.inPipe.length)
    accepted := p.accepted ++ newly d p.state accepted }

/-- The record after any other step: what the pipe has gained. -/
def Pass.moved (p : Pass N) (t : State N) : Pass N :=
  { p with state := t, written := p.written ++ t.inPipe.drop p.state.inPipe.length }

def passStep (d : Descriptors) (p : Pass N) (l : Label N) : Option (Pass N) :=
  (step d p.state l).map fun t =>
    match l with
    | .select ready => .begin t ready
    | .visit accepted _ => p.visited d accepted t
    | _ => p.moved t

/-- The descriptors `seen` have been served, and no others. -/
structure Served (d : Descriptors) (p : Pass N) (seen : Finset Nat) : Prop where
  ordered : (p.pushed.map Req.fd).Pairwise (· < ·)
  clients : ∀ fd, fd ∈ p.pushed.map Req.fd ↔ fd ∈ seen ∧ fd ∉ d.watched
  returned : p.returned.length = if d.pipe ∈ seen then 1 else 0
  oldest : p.returned ++ p.state.inPipe = p.selected.inPipe ++ p.written
  accepted : p.accepted.length = if d.server ∈ seen then 1 else 0
  foreign : ∀ fd ∈ p.accepted, fd ∉ d.own
  watched : ∀ fd, fd ∈ p.state.set ↔ fd ∈ p.accepted ∨ fd ∈ p.returned ∨
    fd ∈ p.selected.set ∧ (fd ∈ seen → fd ∈ d.watched)
  sighup : p.state.sigHUP = true ↔ p.selected.sigHUP = true ∨ d.sighup ∈ seen
  sigint : p.state.sigINT = true ↔ p.selected.sigINT = true ∨ d.sigint ∈ seen

/-- The part of the snapshot that the loop has gone past. -/
def seen (ready : Finset Nat) (fd : Nat) : Finset Nat := ready.filter (· < fd)

theorem seen_skip {ready : Finset Nat} {fd : Nat} (h : fd ∉ ready) :
    seen ready (fd + 1) = seen ready fd := by
  unfold seen
  refine Finset.filter_congr fun x hx => ?_
  have hne : x ≠ fd := fun he => h (he ▸ hx)
  omega

theorem seen_succ {ready : Finset Nat} {fd : Nat} (h : fd ∈ ready) :
    seen ready (fd + 1) = insert fd (seen ready fd) := by
  ext x
  simp only [seen, Finset.mem_filter, Finset.mem_insert]
  constructor
  · intro ⟨hx, hlt⟩
    rcases Nat.lt_succ_iff_lt_or_eq.mp hlt with hlt | rfl
    · exact .inr ⟨hx, hlt⟩
    · exact .inl rfl
  · rintro (rfl | ⟨hx, hlt⟩)
    · exact ⟨h, Nat.lt_succ_self _⟩
    · exact ⟨hx, Nat.lt_succ_of_lt hlt⟩

/-- What has been accepted or has come back is not still to be visited. -/
def Ahead (p : Pass N) (fd : Nat) : Prop :=
  ∀ x, x ∈ p.accepted ∨ x ∈ p.returned → x ∈ p.ready → x < fd

/-- Where the record stands before the visit of a descriptor. -/
structure Going (d : Descriptors) (p : Pass N) (fd : Nat) (tmpset : Finset Nat) : Prop where
  snapshot : tmpset = p.ready
  served : Served d p (seen p.ready fd)
  ahead : Ahead p fd

/-- Where the record stands, by where `main` is. -/
def Recorded (d : Descriptors) (p : Pass N) : MainPc → Prop
  | .top => Served d p p.ready
  | .pass fd tmpset => Going d p fd tmpset
  | .load fd tmpset | .store fd tmpset _ => Going d p (fd + 1) tmpset
  | _ => True

theorem served_begin (d : Descriptors) (s : State N) (ready : Finset Nat) :
    Served d (.begin s ready) ∅ where
  ordered := List.Pairwise.nil
  clients fd := by simp [Pass.begin]
  returned := rfl
  oldest := (List.append_nil s.inPipe).symm
  accepted := rfl
  foreign fd h := by cases h
  watched fd := by simp [Pass.begin]
  sighup := by simp [Pass.begin]
  sigint := by simp [Pass.begin]

section

variable {p : Pass N} {t : State N} {fd : Nat} {accepted : Option Nat} {before : Finset Nat}

/-! ## One visit -/

/-- A visit that serves nobody. -/
theorem served_skip (h : Served d p before) (hnew : newly d p.state accepted = [])
    (hq : t.queue = p.state.queue) (hp : t.inPipe = p.state.inPipe) (hset : t.set = p.state.set)
    (hhup : t.sigHUP = p.state.sigHUP) (hint : t.sigINT = p.state.sigINT) :
    Served d (p.visited d accepted t) before := by
  -- no list of the record gets longer
  have hpushed : (p.visited d accepted t).pushed = p.pushed := by
    show p.pushed ++ t.queue.drop p.state.queue.length = p.pushed
    rw [hq, List.drop_length, List.append_nil]
  have hreturned : (p.visited d accepted t).returned = p.returned := by
    show p.returned ++ p.state.inPipe.take (p.state.inPipe.length - t.inPipe.length) = p.returned
    rw [hp, Nat.sub_self, List.take_zero, List.append_nil]
  have haccepted : (p.visited d accepted t).accepted = p.accepted := by
    show p.accepted ++ newly d p.state accepted = p.accepted
    rw [hnew, List.append_nil]
  refine ⟨?_, ?_, ?_, ?_, ?_, ?_, ?_, ?_, ?_⟩
  · rw [hpushed]
    exact h.ordered
  · rw [hpushed]
    exact h.clients
  · rw [hreturned]
    exact h.returned
  · rw [hreturned]
    show p.returned ++ t.inPipe = _
    rw [hp]
    exact h.oldest
  · rw [haccepted]
    exact h.accepted
  · rw [haccepted]
    exact h.foreign
  · rw [haccepted, hreturned]
    show ∀ fd, fd ∈ t.set ↔ _
    rw [hset]
    exact h.watched
  · show t.sigHUP = true ↔ _
    rw [hhup]
    exact h.sighup
  · show t.sigINT = true ↔ _
    rw [hint]
    exact h.sigint

/-- What the visit of a ready descriptor does: a client is pushed and no longer watched,
and the server's own descriptors do what they are for. -/
structure Effect (d : Descriptors) (s t : State N) (fd : Nat) (accepted : Option Nat)
    (back fresh : List Nat) : Prop where
  pushed : (t.queue.drop s.queue.length).map Req.fd = if fd ∈ d.watched then [] else [fd]
  piped : s.inPipe = back ++ t.inPipe
  returned : back.length = if fd = d.pipe then 1 else 0
  newly : newly d s accepted = fresh
  accepted : fresh.length = if fd = d.server then 1 else 0
  foreign : ∀ x ∈ fresh, x ∉ d.own
  unwatched : ∀ x, x ∈ fresh ∨ x ∈ back → x ∉ s.set
  set : ∀ x, x ∈ t.set ↔ x ∈ fresh ∨ x ∈ back ∨ x ∈ s.set ∧ (x = fd → fd ∈ d.watched)
  sighup : t.sigHUP = true ↔ s.sigHUP = true ∨ fd = d.sighup
  sigint : t.sigINT = true ↔ s.sigINT = true ∨ fd = d.sigint

/-- A list that has gained an entry for `fd`, if that is `x`. -/
theorem length_insert {l new : List Nat} {x : Nat} (hnot : fd ∉ before)
    (hl : l.length = if x ∈ before then 1 else 0) (hnew : new.length = if fd = x then 1 else 0) :
    (l ++ new).length = if x ∈ insert fd before then 1 else 0 := by
  rw [List.length_append, hl, hnew]
  by_cases hx : fd = x
  · subst hx
    rw [if_neg hnot, if_pos rfl, if_pos (Finset.mem_insert_self ..)]
  · rw [if_neg hx, Nat.add_zero]
    refine if_congr ?_ rfl rfl
    rw [Finset.mem_insert]
    exact ⟨.inr, fun hor => hor.resolve_left fun he => hx he.symm⟩

/-- A flag that is also set by the descriptor `x`. -/
theorem flag_insert {a b c : Prop} {x : Nat} (hb : b ↔ a ∨ x ∈ before) (hc : c ↔ b ∨ fd = x) :
    c ↔ a ∨ x ∈ insert fd before := by
  rw [hc, hb, Finset.mem_insert, or_assoc, or_comm (b := fd = x), eq_comm]

theorem Effect.returned_eq {back fresh : List Nat} (he : Effect d p.state t fd accepted back fresh) :
    (p.visited d accepted t).returned = p.returned ++ back := by
  show p.returned ++ p.state.inPipe.take (p.state.inPipe.length - t.inPipe.length) = _
  rw [he.piped, List.length_append, Nat.add_sub_cancel, List.take_left]

theorem Effect.accepted_eq {back fresh : List Nat} (he : Effect d p.state t fd accepted back fresh) :
    (p.visited d accepted t).accepted = p.accepted ++ fresh := by
  show p.accepted ++ Dispatcher.newly d p.state accepted = _
  rw [he.newly]

/-- A visit that serves one more descriptor, above those before. -/
theorem served_insert {back fresh : List Nat} (h : Served d p before)
    (habove : ∀ x ∈ before, x < fd) (hahead : fd ∉ p.accepted ∧ fd ∉ p.returned)
    (he : Effect d p.state t fd accepted back fresh) :
    Served d (p.visited d accepted t) (insert fd before) := by
  have hnot : fd ∉ before := fun hmem => Nat.lt_irrefl _ (habove fd hmem)
  have hmap : (p.visited d accepted t).pushed.map Req.fd =
      p.pushed.map Req.fd ++ if fd ∈ d.watched then [] else [fd] := by
    rw [← he.pushed]
    exact List.map_append
  refine ⟨?_, fun x => ?_, ?_, ?_, ?_, fun x hx => ?_, fun x => ?_, ?_, ?_⟩
  · rw [hmap]
    refine List.pairwise_append.mpr ⟨h.ordered, ?_, fun x hx y hy => ?_⟩
    · split
      · exact List.Pairwise.nil
      · exact List.pairwise_singleton _ _
    · split at hy
      · cases hy
      · rw [List.mem_singleton.mp hy]
        exact habove x ((h.clients x).mp hx).1
  · rw [hmap, List.mem_append, h.clients, Finset.mem_insert]
    constructor
    · rintro (⟨hx, hw⟩ | hx)
      · exact ⟨.inr hx, hw⟩
      · split at hx
        · cases hx
        · next hw =>
          rw [List.mem_singleton.mp hx]
          exact ⟨.inl rfl, hw⟩
    · rintro ⟨rfl | hx, hw⟩
      · refine .inr ?_
        rw [if_neg hw]
        exact List.mem_singleton_self _
      · exact .inl ⟨hx, hw⟩
  · rw [he.returned_eq]
    exact length_insert hnot h.returned he.returned
  · rw [he.returned_eq, List.append_assoc]
    show p.returned ++ (back ++ t.inPipe) = _
    rw [← he.piped]
    exact h.oldest
  · rw [he.accepted_eq]
    exact length_insert hnot h.accepted he.accepted
  · rw [he.accepted_eq] at hx
    rcases List.mem_append.mp hx with hx | hx
    · exact h.foreign x hx
    · exact he.foreign x hx
  · rw [he.accepted_eq, he.returned_eq, List.mem_append, List.mem_append]
    show x ∈ t.set ↔ (_ ∨ _) ∨ (_ ∨ _) ∨ x ∈ p.selected.set ∧ (_ → _)
    rw [he.set, h.watched, Finset.mem_insert]
    by_cases hx : x = fd
    · -- the visited descriptor itself has not come in by this pass
      subst hx
      simp only [hahead.1, hahead.2, hnot, false_or, true_or, true_implies]
      tauto
    · simp only [hx, false_or, false_implies, and_true]
      tauto
  · exact flag_insert h.sighup he.sighup
  · exact flag_insert h.sigint he.sigint

theorem Descriptors.mem_watched {x : Nat} :
    x ∈ d.watched ↔ x = d.server ∨ x = d.pipe ∨ x = d.sighup ∨ x = d.sigint := by
  simp [Descriptors.watched]

/-! ## The branches of a visit -/

/-- `main` does not call `accept` on this visit. -/
theorem newly_none {s : State N} {tmpset : Finset Nat} (hm : s.main = .pass fd tmpset)
    (h : ¬ (fd ≤ s.fdMax ∧ fd ∈ tmpset ∧ fd = d.server ∧ s.sigHUP = false)) :
    newly d s accepted = [] := by
  refine if_neg fun hyes => h ?_
  simp only [accepting, hm, Bool.and_eq_true, decide_eq_true_eq, Bool.not_eq_true'] at hyes
  exact ⟨hyes.1.1, hyes.1.2.1, hyes.1.2.2, hyes.2⟩

/-- When the pass goes on after the branch for clients, it has pushed one. -/
structure Pushed (s t : State N) (fd : Nat) (close : Bool) : Prop where
  client : s.connected fd = true
  queue : t.queue = s.queue ++ [⟨fd, close⟩]
  set : t.set = s.set.erase fd
  inPipe : t.inPipe = s.inPipe
  sigHUP : t.sigHUP = s.sigHUP
  sigINT : t.sigINT = s.sigINT

theorem request_pushed {s : State N} {close : Bool} {tmpset : Finset Nat}
    (h : (request s fd close (.pass (fd + 1) tmpset)).main = .pass (fd + 1) tmpset) :
    Pushed s (request s fd close (.pass (fd + 1) tmpset)) fd close := by
  unfold request at h ⊢
  simp only at h ⊢
  split at h
  · cases h
  · split at h
    · next hcon =>
      rw [if_pos hcon]
      exact ⟨hcon, rfl, rfl, rfl, rfl, rfl⟩
    · cases h

/-- The pass goes on, to the next descriptor or to counting a client in. -/
def GoesOn (t : State N) (fd : Nat) (tmpset : Finset Nat) : Prop :=
  t.main = .pass (fd + 1) tmpset ∨ t.main = .load fd tmpset

theorem effect_visit {s : State N} {tmpset : Finset Nat} {close : Bool} (hi : Inv d s)
    (hm : s.main = .pass fd tmpset) (hf : fits d s (.visit accepted close) = true)
    (ready : fd ∈ tmpset) (h : Visited d s fd tmpset accepted close t)
    (hgo : GoesOn t fd tmpset) : ∃ back fresh, Effect d s t fd accepted back fresh := by
  have hnodup := d.nodup
  simp only [List.nodup_cons, List.mem_cons, List.not_mem_nil, or_false, not_or] at hnodup
  obtain ⟨⟨hsp, hsh, hsi⟩, ⟨hph, hpi⟩, hhi, -⟩ := hnodup
  -- one of the server's own descriptors is served without a push, and stays
  have own_pushed : fd ∈ d.watched → (s.queue.drop s.queue.length).map Req.fd =
      if fd ∈ d.watched then [] else [fd] := by
    intro hw
    rw [if_pos hw, List.drop_length]
    rfl
  have own_set : fd ∈ d.watched → ∀ x, x ∈ s.set ↔
      x ∈ ([] : List Nat) ∨ x ∈ ([] : List Nat) ∨ x ∈ s.set ∧ (x = fd → fd ∈ d.watched) := by
    intro hw x
    simp [hw]
  have none_new : ∀ x, x ∈ ([] : List Nat) ∨ x ∈ ([] : List Nat) → x ∉ s.set := by simp
  cases h with
  | done => rcases hgo with hgo | hgo <;> cases hgo
  | skip hnot => exact absurd ready hnot
  | failed bound _ server result =>
    simp [fits, accepting_of_visit hm bound ready server, result] at hf
  | @accept fdClient bound _ server result free notOwn =>
    have hyes := accepting_of_visit hm bound ready server
    have hbit : fdClient < fdSetSize := by
      simpa only [fits, hyes, result, Bool.not_true, Bool.false_or, Option.any_some,
        decide_eq_true_eq] using hf
    obtain ⟨rfl, -⟩ := server
    have hw : d.server ∈ d.watched := Descriptors.mem_watched.mpr (.inl rfl)
    refine ⟨[], [fdClient], own_pushed hw, rfl, by rw [if_neg hsp]; rfl, ?_, (if_pos rfl).symm,
      (by simpa using notOwn), (by simpa using (hi.unused free notOwn).1), fun x => ?_,
      ⟨.inl, fun hor => hor.resolve_right hsh⟩, ⟨.inl, fun hor => hor.resolve_right hsi⟩⟩
    · rw [newly, hyes, if_pos rfl, result]
      rfl
    · show x ∈ (s.watch fdClient).set ↔ _
      rw [watch_set hbit]
      simp [hw]
  | @back fdBuf rest _ pipe piped =>
    subst pipe
    have hw : d.pipe ∈ d.watched := Descriptors.mem_watched.mpr (.inr (.inl rfl))
    have hpos : 0 < s.queued fdBuf + s.held fdBuf + s.piped fdBuf := by
      have hin : 0 < s.piped fdBuf := List.count_pos_iff.mpr (by rw [piped]; exact List.mem_cons_self)
      omega
    obtain ⟨-, hcon, hset, -⟩ := hi.away hpos
    refine ⟨[fdBuf], [], own_pushed hw, piped, (if_pos rfl).symm,
      newly_none hm fun hand => hsp hand.2.2.1.symm, by rw [if_neg (Ne.symm hsp)]; rfl,
      (by intro x hx; cases hx), (by simpa using hset), fun x => ?_,
      ⟨.inl, fun hor => hor.resolve_right hph⟩, ⟨.inl, fun hor => hor.resolve_right hpi⟩⟩
    show x ∈ (s.watch fdBuf).set ↔ _
    rw [watch_set (hi.bits fdBuf hcon)]
    simp [hw]
  | sigint _ heq =>
    subst heq
    have hw : d.sigint ∈ d.watched := Descriptors.mem_watched.mpr (.inr (.inr (.inr rfl)))
    exact ⟨[], [], own_pushed hw, rfl, by rw [if_neg (Ne.symm hpi)]; rfl,
      newly_none hm fun hand => hsi hand.2.2.1.symm, by rw [if_neg (Ne.symm hsi)]; rfl,
      (by intro x hx; cases hx), none_new, own_set hw,
      ⟨.inl, fun hor => hor.resolve_right (Ne.symm hhi)⟩, ⟨fun _ => .inr rfl, fun _ => rfl⟩⟩
  | sighup _ heq =>
    subst heq
    have hw : d.sighup ∈ d.watched := Descriptors.mem_watched.mpr (.inr (.inr (.inl rfl)))
    exact ⟨[], [], own_pushed hw, rfl, by rw [if_neg (Ne.symm hph)]; rfl,
      newly_none hm fun hand => hsh hand.2.2.1.symm, by rw [if_neg (Ne.symm hsh)]; rfl,
      (by intro x hx; cases hx), none_new, own_set hw,
      ⟨fun _ => .inr rfl, fun _ => rfl⟩, ⟨.inl, fun hor => hor.resolve_right hhi⟩⟩
  | request _ _ server pipe sigint sighup =>
    have hpass : (request s fd close (.pass (fd + 1) tmpset)).main = .pass (fd + 1) tmpset := by
      rcases hgo with hgo | hgo
      · exact hgo
      · unfold request at hgo
        simp only at hgo
        split at hgo
        · cases hgo
        · split at hgo <;> cases hgo
    have hpush := request_pushed hpass
    have hown : fd ∉ d.own := fun ho =>
      Bool.noConfusion ((hi.own fd ho).1.symm.trans hpush.client)
    have hw : fd ∉ d.watched := fun hmem => hown (d.own_of_watched hmem)
    have hserver : fd ≠ d.server := fun heq => hown (heq ▸ d.server_own)
    refine ⟨[], [], ?_, hpush.inPipe.symm, by rw [if_neg pipe]; rfl,
      newly_none hm fun hand => server hand.2.2,
      by rw [if_neg hserver]; rfl, (by intro x hx; cases hx), none_new,
      fun x => ?_, ?_, ?_⟩
    · rw [hpush.queue, List.drop_left, if_neg hw]
      rfl
    · rw [hpush.set, Finset.mem_erase]
      simp only [List.not_mem_nil, false_or, hw, imp_false]
      exact and_comm
    · rw [hpush.sigHUP]
      exact ⟨.inl, fun hor => hor.resolve_right sighup⟩
    · rw [hpush.sigINT]
      exact ⟨.inl, fun hor => hor.resolve_right sigint⟩

/-- Where a visit leaves `main`. -/
theorem visited_main {s : State N} {tmpset : Finset Nat} {close : Bool}
    (h : Visited d s fd tmpset accepted close t) :
    (s.fdMax < fd ∧ t = { s with main := .top }) ∨ GoesOn t fd tmpset ∨ t.main = .exited ∨
      t.main = .aborted := by
  cases h with
  | done bound => exact .inl ⟨bound, rfl⟩
  | failed => exact .inr (.inl (.inr rfl))
  | accept => exact .inr (.inl (.inr rfl))
  | request =>
    unfold request
    simp only
    split
    · exact .inr (.inr (.inr rfl))
    · split
      · exact .inr (.inl (.inl rfl))
      · exact .inr (.inr (.inl rfl))
  | _ => exact .inr (.inl (.inl rfl))

/-! ## The whole pass -/

/-- The record goes on with the visit of a descriptor that was ready. -/
theorem going_served {tmpset : Finset Nat} {close : Bool} (hi : Inv d p.state)
    (hm : p.state.main = .pass fd tmpset) (hf : fits d p.state (.visit accepted close) = true)
    (hr : Going d p fd tmpset) (ready : fd ∈ p.ready)
    (hv : Visited d p.state fd tmpset accepted close t) (hgo : GoesOn t fd tmpset) :
    Going d (p.visited d accepted t) (fd + 1) tmpset := by
  obtain ⟨rfl, hserved, hahead⟩ := hr
  have habove : ∀ x ∈ seen p.ready fd, x < fd := fun x hx => (Finset.mem_filter.mp hx).2
  obtain ⟨back, fresh, he⟩ := effect_visit hi hm hf ready hv hgo
  have hnot : fd ∉ p.accepted ∧ fd ∉ p.returned :=
    ⟨fun hx => Nat.lt_irrefl _ (hahead fd (.inl hx) ready),
      fun hx => Nat.lt_irrefl _ (hahead fd (.inr hx) ready)⟩
  refine ⟨rfl, ?_, fun x hx hready => ?_⟩
  · show Served d _ (seen p.ready (fd + 1))
    rw [seen_succ ready]
    exact served_insert hserved habove hnot he
  · rw [he.accepted_eq, he.returned_eq, List.mem_append, List.mem_append] at hx
    have hcases : (x ∈ p.accepted ∨ x ∈ p.returned) ∨ x ∈ fresh ∨ x ∈ back := by tauto
    rcases hcases with hx | hx
    · exact Nat.lt_succ_of_lt (hahead x hx hready)
    · -- it was not watched, and what is still to be visited is
      by_contra hlt
      refine he.unwatched x hx (hi.snapshot ?_)
      rw [hm]
      exact Finset.mem_filter.mpr ⟨hready, by omega⟩

theorem recorded_visit {tmpset : Finset Nat} {close : Bool} (hi : Inv d p.state)
    (hm : p.state.main = .pass fd tmpset) (hf : fits d p.state (.visit accepted close) = true)
    (hr : Recorded d p p.state.main) (h : visit d p.state fd tmpset accepted close = some t) :
    Recorded d (p.visited d accepted t) t.main := by
  rw [hm] at hr
  have hgoing : Going d p fd tmpset := hr
  have hv := visited h
  rcases visited_main hv with ⟨bound, rfl⟩ | hgo | hgo | hgo
  · -- nothing ready lies above the bound
    obtain ⟨rfl, hserved, -⟩ := hgoing
    have hall : seen p.ready fd = p.ready := by
      refine Finset.filter_true_of_mem fun x hx => ?_
      by_contra hlt
      have hmem : x ∈ p.state.set := by
        refine hi.snapshot ?_
        rw [hm]
        exact Finset.mem_filter.mpr ⟨hx, Nat.not_lt.mp hlt⟩
      have := hi.max.2 x hmem
      omega
    rw [hall] at hserved
    exact served_skip hserved (newly_none hm fun hand => by omega) rfl rfl rfl rfl rfl
  · have hnext : Going d (p.visited d accepted t) (fd + 1) tmpset := by
      -- a descriptor that is ready is served, and one that is not is passed over
      by_cases ready : fd ∈ p.ready
      · exact going_served hi hm hf hgoing ready hv hgo
      · obtain ⟨rfl, hserved, hahead⟩ := hgoing
        cases hv with
        | skip =>
          have hnew : newly d p.state accepted = [] := newly_none hm fun hand => ready hand.2.1
          refine ⟨rfl, ?_, fun x hx hready => ?_⟩
          · show Served d _ (seen p.ready (fd + 1))
            rw [seen_skip ready]
            exact served_skip hserved hnew rfl rfl rfl rfl rfl
          · simp only [Pass.visited, hnew, List.append_nil, Nat.sub_self, List.take_zero] at hx
            exact Nat.lt_succ_of_lt (hahead x hx hready)
        | done => rcases hgo with hgo | hgo <;> cases hgo
        | failed _ hin => exact absurd hin ready
        | accept _ hin => exact absurd hin ready
        | back hin => exact absurd hin ready
        | sigint hin => exact absurd hin ready
        | sighup hin => exact absurd hin ready
        | request _ hin => exact absurd hin ready
    rcases hgo with hgo | hgo
    · rw [hgo]
      exact hnext
    · rw [hgo]
      exact hnext
  · rw [hgo]
    trivial
  · rw [hgo]
    trivial

/-- A step outside of the visits does not change the record, but for what goes into the
pipe, nor what it is about. -/
theorem served_moved {new : List Nat} (h : Served d p before) (hset : t.set = p.state.set)
    (hpipe : t.inPipe = p.state.inPipe ++ new) (hhup : t.sigHUP = p.state.sigHUP)
    (hint : t.sigINT = p.state.sigINT) : Served d (p.moved t) before where
  ordered := h.ordered
  clients := h.clients
  returned := h.returned
  oldest := by
    show p.returned ++ t.inPipe = p.selected.inPipe ++ (p.written ++ t.inPipe.drop _)
    rw [hpipe, List.drop_left, ← List.append_assoc, h.oldest, List.append_assoc]
  accepted := h.accepted
  foreign := h.foreign
  watched := by
    show ∀ fd, fd ∈ t.set ↔ _
    rw [hset]
    exact h.watched
  sighup := by
    show t.sigHUP = true ↔ _
    rw [hhup]
    exact h.sighup
  sigint := by
    show t.sigINT = true ↔ _
    rw [hint]
    exact h.sigint

/-- What a step of a worker leaves to `main`. -/
theorem worker_frame {s : State N} {l : Label N} (hl : l.ofMain = false)
    (h : step d s l = some t) :
    t.set = s.set ∧ (∃ new, t.inPipe = s.inPipe ++ new) ∧ t.sigHUP = s.sigHUP ∧
      t.sigINT = s.sigINT := by
  have nothing : ∃ new, s.inPipe = s.inPipe ++ new := ⟨[], (List.append_nil _).symm⟩
  cases l with
  | select => cases hl
  | visit => cases hl
  | count => cases hl
  | pop w =>
    obtain ⟨rq, queue, -, -, rfl⟩ := pop_cases h
    exact ⟨rfl, nothing, rfl, rfl⟩
  | reinsert w =>
    obtain ⟨fd, -, rfl⟩ := reinsert_cases h
    exact ⟨rfl, ⟨[fd], rfl⟩, rfl, rfl⟩
  | leave w =>
    rcases leave_cases h with ⟨fd, -, rfl⟩ | ⟨fd, n, -, rfl⟩
    · exact ⟨rfl, nothing, rfl, rfl⟩
    · exact ⟨rfl, nothing, rfl, rfl⟩
  | close w =>
    obtain ⟨fd, -, rfl⟩ := close_cases h
    exact ⟨rfl, nothing, rfl, rfl⟩

theorem recorded_worker {l : Label N} (hl : l.ofMain = false) (hr : Recorded d p p.state.main)
    (h : step d p.state l = some t) : Recorded d (p.moved t) t.main := by
  obtain ⟨hset, ⟨new, hpipe⟩, hhup, hint⟩ := worker_frame hl h
  have same : ∀ {fd : Nat} {tmpset : Finset Nat}, Going d p fd tmpset →
      Going d (p.moved t) fd tmpset :=
    fun hg => ⟨hg.snapshot, served_moved hg.served hset hpipe hhup hint, hg.ahead⟩
  rw [main_of_worker hl h]
  cases hm : p.state.main with
  | top =>
    rw [hm] at hr
    exact served_moved hr hset hpipe hhup hint
  | pass fd tmpset =>
    rw [hm] at hr
    exact same hr
  | load fd tmpset =>
    rw [hm] at hr
    exact same hr
  | store fd tmpset nclient =>
    rw [hm] at hr
    exact same hr
  | _ => trivial

/-- Counting a client in changes nothing else. -/
theorem recorded_count (hr : Recorded d p p.state.main) (h : step d p.state .count = some t) :
    Recorded d (p.moved t) t.main := by
  have nothing : p.state.inPipe = p.state.inPipe ++ [] := (List.append_nil _).symm
  simp only [step] at h
  split at h
  · next fd tmpset hm =>
    cases h
    rw [hm] at hr
    exact ⟨hr.snapshot, served_moved hr.served rfl nothing rfl rfl, hr.ahead⟩
  · next fd tmpset nclient hm =>
    cases h
    rw [hm] at hr
    exact ⟨hr.snapshot, served_moved hr.served rfl nothing rfl rfl, hr.ahead⟩
  · cases h

end

theorem recorded_step {p p' : Pass N} {l : Label N} (hi : Inv d p.state)
    (hf : fits d p.state l = true) (hr : Recorded d p p.state.main)
    (h : passStep d p l = some p') : Recorded d p' p'.state.main := by
  obtain ⟨t, ht, rfl⟩ := Option.map_eq_some_iff.mp h
  cases l with
  | select ready =>
    simp only [step] at ht
    split at ht
    · rcases select_eq ht with ⟨-, rfl⟩ | ⟨-, rfl⟩ | ⟨-, rfl⟩
      · trivial
      · trivial
      · have hnone : seen ready 0 = ∅ := Finset.filter_false_of_mem fun x _ => Nat.not_lt_zero x
        refine ⟨rfl, ?_, fun x hx => ?_⟩
        · show Served d _ (seen ready 0)
          rw [hnone]
          exact served_begin d _ ready
        · rcases hx with hx | hx <;> cases hx
    · cases ht
  | visit accepted close =>
    simp only [step] at ht
    split at ht
    · next fd tmpset hm => exact recorded_visit hi hm hf hr ht
    · cases ht
  | count => exact recorded_count hr ht
  | _ => exact recorded_worker rfl hr ht

/-- **When a pass is over, `main` has served exactly what `select` reported**, in every
run whose calls of `accept` succeed with a number below `FD_SETSIZE`. The connections
that it has accepted are those of clients. -/
theorem pass_serves_ready (d : Descriptors) (N : Nat) (p : Pass N)
    (h : Reach (passStep d) (fun p l => fits d p.state l = true) (Pass.start d N) p)
    (htop : p.state.main = .top) :
    Served d p p.ready ∧ ∀ fd ∈ p.accepted, IsClient d p.state fd := by
  have hall : Inv d p.state ∧ Recorded d p p.state.main := by
    have hstart : Recorded d (Pass.start d N) .top := served_begin d (init d N) ∅
    refine h.invariant (fun p => Inv d p.state ∧ Recorded d p p.state.main)
      (And.intro (inv_init d N) hstart) fun p l p' hi hf hs => ⟨?_, recorded_step hi.1 hf hi.2 hs⟩
    obtain ⟨t, ht, rfl⟩ := Option.map_eq_some_iff.mp hs
    cases l <;> exact inv_step hi.1 hf ht
  have hr := hall.2
  rw [htop] at hr
  have hserved : Served d p p.ready := hr
  exact ⟨hserved, fun fd hfd => hall.1.isClient ((hserved.watched fd).mpr (.inl hfd))
    (hserved.foreign fd hfd)⟩

/-- Three clients connect, two of them and the listening socket are ready at
once, and a worker takes the first request while the pass goes on. -/
theorem pass_serves_ready_three :
    ∃ p : Pass 2,
      Reach (passStep atStart) (fun p l => fits atStart p.state l = true) (Pass.start atStart 2) p ∧
      p.ready = {8, 12, 13} ∧ p.pushed.map Req.fd = [12, 13] ∧ p.accepted = [14] ∧
      Served atStart p p.ready ∧ IsClient atStart p.state 14 := by
  let visits (n : Nat) (fd : Nat) : List (Label 2) := List.replicate n (.visit (some fd) true)
  obtain ⟨p, hr, hp⟩ := Reach.of_guarded_test (passStep atStart)
    (fun p l => fits atStart p.state l) (Pass.start atStart 2)
    (List.flatten [connects (some 11) 4, connects (some 12) 5, connects (some 13) 6,
      [.select {8, 12, 13}], visits 9 14, [.count, .count], visits 4 14, [.pop 1], visits 3 14])
    (fun p => decide (p.state.main = .top) && decide (p.ready = {8, 12, 13}) &&
      decide (p.pushed.map Req.fd = [12, 13]) && decide (p.accepted = [14])) (by decide +kernel)
  simp only [Bool.and_eq_true, decide_eq_true_eq] at hp
  obtain ⟨⟨⟨htop, hready⟩, hpushed⟩, haccepted⟩ := hp
  obtain ⟨hserved, hclient⟩ := pass_serves_ready atStart 2 p hr htop
  exact ⟨p, hr, hready, hpushed, haccepted, hserved, hclient 14 (by simp [haccepted])⟩

end FileStorage.Dispatcher
