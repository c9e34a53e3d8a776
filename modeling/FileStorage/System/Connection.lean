import FileStorage.System.Base

/-!
# Owners are live clients

`fdClient_id` holds a descriptor number, and the kernel may give the number of
a closed connection to the next client. `openedSince log fd n` reads off the
history whether the client that has `fd` now has opened file `n` on its current
connection: the last `accept` of the number comes before the OPEN.

CLOSE CONNECTION compares a socket name, answers and closes the descriptor; it
touches no file. `releases` is the condition that there is nothing to release:
the client that disconnects owns no file any more. Every other handler writes
`-1`, or the descriptor of its own request next to the `opened` event, so the
invariant `ConnInv` then holds over every interleaving.
-/

namespace FileStorage.System

open FileStorage.Lib FileStorage.Storage FileStorage.Worker

/-- The present holder of the descriptor has opened the file, by the history. -/
def openedSince : List Event → Nat → NodeId → Bool
  | [], _, _ => false
  | .opened rq m :: log, fd, n => if rq.fd = fd ∧ m = n then true else openedSince log fd n
  | .accepted fd' :: log, fd, n => if fd' = fd then false else openedSince log fd n
  | _ :: log, fd, n => openedSince log fd n

/-- A client that closes its connection owns no file. -/
def releases (s : Sys) : Label → Bool
  | .work fd =>
    match s.pc fd with
    | some (.closeConn _) =>
      (List.range s.shared.storage.brk).all fun n =>
        (s.shared.storage.file n).all fun f => f.fdClientId != (fd : Int)
    | _ => true
  | _ => true

section

variable {rq : Request} {A : Bytes → Prop} {pc : Pc} {pc' : Option Pc} {st st' : Store}
variable {ev : Option Event} {n : NodeId} {f : File}

/-- The owner of a file is the old one, nobody, or the client that has just
opened it. -/
theorem owner_trans (h : Trans rq A pc st pc' st' ev)
    (hnew : ∀ x, creating pc = some x → ∃ p, x = createFileNode p rq.fd)
    (hf : st'.files n = some f) :
    (∃ g, st.files n = some g ∧ f.fdClientId = g.fdClientId) ∨ f.fdClientId = -1 ∨
      (f.fdClientId = rq.fd ∧ ev = some (.opened rq n)) := by
  -- a removal leaves the owners of the others, and `-1` is nobody
  have kept : ∀ {m : NodeId} {g : File}, (st.remove m g).files n = some f →
      ∃ g, st.files n = some g ∧ f.fdClientId = g.fdClientId :=
    fun h => ⟨f, (Store.of_files_remove h).2, rfl⟩
  have closed : ∀ {m : NodeId}, (st.setFd m (-1)).files n = some f →
      (∃ g, st.files n = some g ∧ f.fdClientId = g.fdClientId) ∨ f.fdClientId = -1 := by
    intro m h
    obtain ⟨g, hg, ⟨rfl, -⟩ | ⟨he, -⟩⟩ := Store.of_files_setFd h
    · exact .inr rfl
    · exact .inl ⟨g, hg, by rw [he]⟩
  cases h with
  | insEvict => exact .inl (kept hf)
  | updEvict => exact .inl (kept hf)
  | updDelete => exact .inl (kept hf)
  | nSend => exact (closed hf).imp id .inl
  | closeTake => exact (closed hf).imp id .inl
  | openTake =>
    obtain ⟨g, hg, ⟨rfl, rfl⟩ | ⟨he, -⟩⟩ := Store.of_files_setFd hf
    · exact .inr (.inr ⟨rfl, rfl⟩)
    · exact .inl ⟨g, hg, by rw [he]⟩
  | insCommit =>
    rcases Store.of_files_insert hf with ⟨rfl, rfl⟩ | ⟨-, hold⟩
    · obtain ⟨p, rfl⟩ := hnew _ rfl
      exact .inr (.inr ⟨rfl, rfl⟩)
    · exact .inl ⟨f, hold, rfl⟩
  | updCommit =>
    obtain ⟨g, hg, ⟨rfl, -⟩ | ⟨he, -⟩⟩ := Store.of_files_append hf
    · exact .inl ⟨g, hg, rfl⟩
    · exact .inl ⟨g, hg, by rw [he]⟩
  | _ => exact .inl ⟨f, hf, rfl⟩

/-- CLOSE CONNECTION changes no file. -/
theorem closeConn_trans (h : Trans rq A pc st pc' st' ev) {rq' : Request} {a : Answer}
    (hev : ev = some (.disconnected rq' a)) : (∃ sn, pc = .closeConn sn) ∧ st' = st := by
  cases h <;> cases hev
  exact ⟨⟨_, rfl⟩, rfl⟩

/-- A worker accepts nobody. -/
theorem not_accepted_trans (h : Trans rq A pc st pc' st' ev) (fd : Nat) :
    ev ≠ some (.accepted fd) := by
  intro hev
  cases h <;> cases hev

end

/-- A worker's event never takes an open file from its owner's history. -/
theorem openedSince_event {log : List Event} {ev : Option Event} {fd : Nat} {n : NodeId}
    (h : openedSince log fd n = true) (hev : ∀ fd', ev ≠ some (.accepted fd')) :
    openedSince (ev.toList ++ log) fd n = true := by
  cases ev with
  | none => exact h
  | some e =>
    cases e with
    | accepted fd' => exact absurd rfl (hev fd')
    | opened rq m =>
      show (if rq.fd = fd ∧ m = n then true else openedSince log fd n) = true
      split
      · rfl
      · exact h
    | _ => exact h

/-- Every owner is a connected client that opened the file itself. -/
structure ConnInv (s : Sys) : Prop where
  base : Base s
  owner : ∀ n f, s.store.files n = some f → f.fdClientId = -1 ∨
    ∃ fd : Nat, f.fdClientId = fd ∧ s.connected fd = true ∧ openedSince s.log fd n = true

theorem connInv_init (ram nfile : Int) (sockname : Bytes) : ConnInv (init ram nfile sockname) where
  base := base_init ram nfile sockname
  owner := by intro n f h; cases h

/-- The condition on CLOSE CONNECTION, as a fact about every stored file. -/
theorem releases_work {s : Sys} {fd : Nat} {j : Job} (hb : Base s) (hj : s.job fd = some j)
    (hg : releases s (.work fd) = true) :
    ∀ sn n f, j.pc = .closeConn sn → s.store.files n = some f → f.fdClientId ≠ fd := by
  intro sn n f hpc hf
  simp only [releases, Sys.pc, hj, Option.map_some, hpc, List.all_eq_true, List.mem_range] at hg
  have hn := hg n (hb.fresh n f hf)
  rw [show s.shared.storage.file n = some f from hf] at hn
  simpa using hn

theorem connInv_step {s t : Sys} {l : Label} (hi : ConnInv s) (hg : releases s l = true)
    (h : step s l = some t) : ConnInv t := by
  refine ⟨base_step hi.base h, fun n f hf => ?_⟩
  rcases step_cases h with ⟨fd, rfl, hc, rfl⟩ | ⟨fd, op, rfl, hj, hc, rfl⟩ |
      ⟨fd, j, e, rfl, hj, -, -⟩
  · -- the number was not in use, so it owns nothing
    refine (hi.owner n f hf).imp id fun ⟨fd', ho, hcon, hsince⟩ => ⟨fd', ho, ?_, ?_⟩
    · have hne : fd' ≠ fd := by
        intro heq
        subst heq
        rw [hc] at hcon
        cases hcon
      show Function.update s.connected fd true fd' = true
      rw [Function.update_of_ne hne]
      exact hcon
    · have hne : fd ≠ fd' := by
        intro heq
        subst heq
        rw [hc] at hcon
        cases hcon
      show (if fd = fd' then false else openedSince s.log fd' n) = true
      rw [if_neg hne]
      exact hsince
  · exact hi.owner n f hf
  · obtain ⟨j, e, hj, rfl, htr⟩ := work_cases h
    have hrq : j.rq.fd = fd := hi.base.fd fd j hj
    have hnoaccept : ∀ fd', e.event ≠ some (.accepted fd') := not_accepted_trans htr
    -- a step ends no connection but that of a worker for CLOSE CONNECTION
    have hcon : ∀ fd', s.connected fd' = true → (fd' = fd → ∀ rq a,
        e.event ≠ some (.disconnected rq a)) → connectedAfter s.connected fd e.event fd' = true := by
      intro fd' hc hno
      unfold connectedAfter
      split
      · next rq a hev =>
        by_cases hfd : fd' = fd
        · exact absurd hev (hno hfd rq a)
        · rw [if_neg hfd]; exact hc
      · exact hc
    rcases owner_trans htr (fun x hx => hrq ▸ hi.base.newborn fd j x hj hx) hf with
      ⟨g, hg', ho⟩ | ho | ⟨ho, hev⟩
    · rcases hi.owner n g hg' with hclosed | ⟨fd', ho', hc, hsince⟩
      · exact .inl (ho.trans hclosed)
      · refine .inr ⟨fd', ho.trans ho', hcon fd' hc ?_, openedSince_event hsince hnoaccept⟩
        intro heq rq a hev
        subst heq
        obtain ⟨⟨sn, hpc⟩, -⟩ := closeConn_trans htr hev
        exact releases_work hi.base hj hg sn n g hpc hg' ho'
    · exact .inl ho
    · refine .inr ⟨fd, by rw [ho, hrq], hcon fd (hi.base.conn fd j hj) ?_, ?_⟩
      · intro _ rq a hdis
        rw [hev] at hdis
        cases hdis
      · show openedSince (e.event.toList ++ s.log) fd n = true
        rw [hev]
        exact if_pos ⟨hrq, rfl⟩

/-- **Owners are live clients** in every run in which a client that closes its
connection has no file open. So a closed connection leaves no file locked, and
a client that has just been accepted owns nothing. -/
theorem owners_are_live {ram nfile : Int} {sockname : Bytes} {s : Sys}
    (h : Reach step (fun s l => releases s l = true) (init ram nfile sockname) s) :
    (∀ n f, s.shared.storage.file n = some f → f.fdClientId = -1 ∨
      ∃ fd : Nat, f.fdClientId = fd ∧ s.connected fd = true ∧ openedSince s.log fd n = true) ∧
    (∀ (fd : Nat) n, s.connected fd = false → ¬ s.store.Owned n fd) ∧
    (∀ (fd : Nat) log n, s.log = .accepted fd :: log → ¬ s.store.Owned n fd) := by
  have hi := h.invariant ConnInv (connInv_init ram nfile sockname)
    fun _ _ _ hi hg hs => connInv_step hi hg hs
  have owner : ∀ (fd : Nat) n, s.store.Owned n fd →
      s.connected fd = true ∧ openedSince s.log fd n = true := by
    intro fd n hx
    obtain ⟨f, hf, ho⟩ := hx
    rcases hi.owner n f hf with hclosed | ⟨fd', ho', hc, hsince⟩
    · omega
    · obtain rfl : fd' = fd := by omega
      exact ⟨hc, hsince⟩
  refine ⟨hi.owner, fun fd n hc ho => ?_, fun fd log n hlog ho => ?_⟩
  · rw [(owner fd n ho).1] at hc
    cases hc
  · have hsince := (owner fd n ho).2
    rw [hlog] at hsince
    simp [openedSince] at hsince

/-- Client 4 closes its file before its connection; the next client with the
number 4 meets the condition too, and owns nothing. -/
theorem owners_are_live_recycled :
    ∃ s log, Reach step (fun s l => releases s l = true) (init 10 3 []) s ∧
      s.log = .accepted 4 :: log ∧ ¬ s.store.Owned 0 4 := by
  obtain ⟨s, hr, hp⟩ := Reach.of_guarded_test step releases (init 10 3 [])
    (List.flatten [[.accept 4, .request 4 (.openFile [47, 97] [49])], works 4 4,
        [.request 4 (.closeFile [47, 97])], works 4 3,
        [.request 4 (.closeConnection []), .work 4, .accept 4]])
    (fun s => s.log.head? == some (.accepted 4)) (by decide +kernel)
  obtain ⟨log, hlog⟩ := List.head?_eq_some_iff.mp (beq_iff_eq.mp hp)
  exact ⟨s, log, hr, hlog, (owners_are_live hr).2.2 4 log 0 hlog⟩

/-- Client 4 leaves with `/a` open: the next client that gets the number 4 owns
a file that it never opened. -/
theorem recycled_descriptor_owns :
    ∃ s, Reach step anyStep (init 10 3 []) s ∧ ∃ f, s.shared.storage.file 0 = some f ∧
      ¬ (f.fdClientId = -1 ∨ ∃ fd : Nat, f.fdClientId = fd ∧ s.connected fd = true ∧
        openedSince s.log fd 0 = true) := by
  obtain ⟨s, hr, hp⟩ := Reach.of_run_test step (init 10 3 [])
    (List.flatten [[.accept 4, .request 4 (.openFile [47, 97] [49])], works 4 4,
        [.request 4 (.closeConnection []), .work 4, .accept 4]])
    (fun s => (s.shared.storage.file 0).map (·.fdClientId) == some 4 && !openedSince s.log 4 0)
    (by decide +kernel)
  simp only [Bool.and_eq_true, beq_iff_eq, Bool.not_eq_true'] at hp
  obtain ⟨f, hf, ho⟩ := Option.map_eq_some_iff.mp hp.1
  refine ⟨s, hr, f, hf, ?_⟩
  intro hx
  rcases hx with hclosed | ⟨fd, hfd, -, hsince⟩
  · omega
  · obtain rfl : fd = 4 := by omega
    rw [hp.2] at hsince
    cases hsince

end FileStorage.System
