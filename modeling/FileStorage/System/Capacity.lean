import FileStorage.System.Base

/-!
# Capacity under concurrency

`insertCreateFile` and `UpdateFile` test `nfile_dispo` and `ram_dispo` without
the lock and take the room in a later section that does not test again. A
worker past its test is `inserting` or `appending`; until its commit it relies
on room that any other commit may take.

`leavesRoom` is the condition that no commit does: an insertion leaves a slot
for every other worker that has tested for one, and an append leaves the bytes
of every other worker that has tested for them. Under it `room_step` keeps both
counters non-negative, and since the counters say exactly what is stored
(`Base.balanced`) the storage never holds more than its capacities. Removals
only give room back, so they need no condition.
-/

namespace FileStorage.System

open FileStorage.Lib FileStorage.Storage FileStorage.Worker

/-- Past the last test of `nfile_dispo`. -/
def inserting : Pc → Bool
  | .insert _ _ .commit => true
  | _ => false

/-- The payload of a worker past its last test of `ram_dispo`. -/
def appending : Pc → Option Bytes
  | .update _ c _ _ p => if p.paid then some c else none
  | _ => none

/-- A commit leaves the room that other workers have tested for. -/
def leavesRoom (s : Sys) : Label → Prop
  | .work fd =>
    match s.pc fd with
    | some (.insert _ _ .commit) =>
      ∀ fd' pc, fd' ≠ fd → s.pc fd' = some pc → inserting pc = true → 1 < s.store.nfileDispo
    | some (.update n c _ _ .commit) =>
      s.store.Owned n fd → ∀ fd' pc c', fd' ≠ fd → s.pc fd' = some pc →
        appending pc = some c' → (c.length : Int) + c'.length ≤ s.store.ramDispo
    | _ => True
  | _ => True

section

variable {rq : Request} {A : Bytes → Prop} {pc q : Pc} {pc' : Option Pc} {st st' : Store}
variable {ev : Option Event} {c : Bytes}

/-- Only a commit takes room. -/
theorem dispo_trans (h : Trans rq A pc st pc' st' ev) (hs : st.Sized) :
    (st.nfileDispo ≤ st'.nfileDispo ∨
      (∃ x rm, pc = .insert x rm .commit) ∧ st'.nfileDispo = st.nfileDispo - 1) ∧
    (st.ramDispo ≤ st'.ramDispo ∨
      ∃ n c rm cf, pc = .update n c rm cf .commit ∧ st.Owned n rq.fd ∧
        st'.ramDispo = st.ramDispo - c.length) := by
  have removed : ∀ {n : NodeId} {f : File}, st.files n = some f →
      st.nfileDispo ≤ (st.remove n f).nfileDispo ∧ st.ramDispo ≤ (st.remove n f).ramDispo := by
    intro n f hf
    have hlen := hs n f hf
    constructor
    · show st.nfileDispo ≤ st.nfileDispo + 1
      omega
    · show st.ramDispo ≤ st.ramDispo + f.fileSz
      omega
  cases h with
  | insCommit => exact ⟨.inr ⟨⟨_, _, rfl⟩, rfl⟩, .inl (Int.le_refl _)⟩
  | insEvict hf => exact ⟨.inl (removed hf).1, .inl (removed hf).2⟩
  | updEvict hf => exact ⟨.inl (removed hf).1, .inl (removed hf).2⟩
  | updDelete hf => exact ⟨.inl (removed hf).1, .inl (removed hf).2⟩
  | updCommit hf ho => exact ⟨.inl (Int.le_refl _), .inr ⟨_, _, _, _, rfl, ⟨_, hf, ho⟩, rfl⟩⟩
  | _ => exact ⟨.inl (Int.le_refl _), .inl (Int.le_refl _)⟩

/-- A worker starts to insert right after it has seen a free slot. -/
theorem inserting_trans (h : Trans rq A pc st pc' st' ev) (hq : pc' = some q)
    (hi : inserting q = true) : st' = st ∧ 0 < st.nfileDispo := by
  cases h with
  | @insMove x rm p p' s hp hp' =>
    cases hq
    cases p' with
    | commit => exact ⟨rfl, hp' rfl⟩
    | _ => cases hi
  | _ => cases hq <;> cases hi

/-- A worker is past its test because it was before, or because it has just
seen that the bytes fit. -/
theorem appending_trans (h : Trans rq A pc st pc' st' ev) (hq : pc' = some q)
    (hc : appending q = some c) :
    st' = st ∧ (appending pc = some c ∨ (c.length : Int) ≤ st.ramDispo) := by
  cases h with
  | @updMove n b rm cf p p' s hp ho hpaid =>
    cases hq
    change (if p'.paid then some b else none) = some c at hc
    by_cases hp' : p'.paid = true
    · rw [if_pos hp'] at hc
      obtain rfl := Option.some.inj hc
      refine ⟨rfl, ?_⟩
      by_cases hold : p.paid = true
      · exact .inl (if_pos hold)
      · exact .inr (hpaid (by simpa using hold) hp')
    · rw [if_neg hp'] at hc
      cases hc
  | updEvict => cases hq; cases hc
  | appStart => cases hq; cases hc
  | _ => cases hq <;> cases hc

end

/-- The counters are not negative, and the workers past a test find what they
have tested for. -/
structure RoomInv (s : Sys) : Prop where
  base : Base s
  nfile : 0 ≤ s.store.nfileDispo
  ram : 0 ≤ s.store.ramDispo
  slot : ∀ fd pc, s.pc fd = some pc → inserting pc = true → 0 < s.store.nfileDispo
  bytes : ∀ fd pc c, s.pc fd = some pc → appending pc = some c →
    (c.length : Int) ≤ s.store.ramDispo

theorem room_init {ram nfile : Int} (sockname : Bytes) (hram : 1 ≤ ram) (hnfile : 1 ≤ nfile) :
    RoomInv (init ram nfile sockname) where
  base := base_init ram nfile sockname
  nfile := by show 0 ≤ nfile; omega
  ram := by show 0 ≤ ram; omega
  slot := by intro fd pc h; cases h
  bytes := by intro fd pc c h; cases h

theorem room_step {s t : Sys} {l : Label} (hi : RoomInv s) (hg : leavesRoom s l)
    (h : step s l = some t) : RoomInv t := by
  have hbase := base_step hi.base h
  rcases step_cases h with ⟨fd, rfl, hc, rfl⟩ | ⟨fd, op, rfl, hj, hc, rfl⟩ |
      ⟨fd, j, e, rfl, hj, -, -⟩
  · exact ⟨hbase, hi.nfile, hi.ram, hi.slot, hi.bytes⟩
  · refine ⟨hbase, hi.nfile, hi.ram, fun fd' pc hpc hins => ?_, fun fd' pc c hpc happ => ?_⟩ <;>
      rcases pc_taken hpc with ⟨rfl, rfl⟩ | ⟨-, hold⟩
    · cases op <;> cases hins
    · exact hi.slot fd' pc hold hins
    · cases op <;> cases happ
    · exact hi.bytes fd' pc c hold happ
  · obtain ⟨j, e, hj, rfl, htr⟩ := work_cases h
    have hrq : j.rq.fd = fd := hi.base.fd fd j hj
    have hpc : s.pc fd = some j.pc := by unfold Sys.pc; rw [hj]; rfl
    obtain ⟨hnf, hrm⟩ := dispo_trans htr hi.base.sized
    refine ⟨hbase, ?_, ?_, fun fd' pc hpc' hins => ?_, fun fd' pc c hpc' happ => ?_⟩
    · rcases hnf with hle | ⟨⟨x, rm, hx⟩, heq⟩
      · exact Int.le_trans hi.nfile hle
      · have := hi.slot fd j.pc hpc (by rw [hx]; rfl)
        omega
    · rcases hrm with hle | ⟨n, c, rm, cf, hx, -, heq⟩
      · exact Int.le_trans hi.ram hle
      · have := hi.bytes fd j.pc c hpc (by rw [hx]; rfl)
        omega
    · rcases pc_after hpc' with ⟨rfl, hq⟩ | ⟨hne, hold⟩
      · obtain ⟨hst, hpos⟩ := inserting_trans htr hq hins
        rw [hst]; exact hpos
      · -- another worker has tested for a slot
        rcases hnf with hle | ⟨⟨x, rm, hx⟩, heq⟩
        · exact Int.lt_of_lt_of_le (hi.slot fd' pc hold hins) hle
        · simp only [leavesRoom, hpc, hx] at hg
          have := hg fd' pc hne hold hins
          omega
    · rcases pc_after hpc' with ⟨rfl, hq⟩ | ⟨hne, hold⟩
      · obtain ⟨hst, hold | hle⟩ := appending_trans htr hq happ
        · rw [hst]; exact hi.bytes fd' j.pc c hpc hold
        · rw [hst]; exact hle
      · rcases hrm with hle | ⟨n, b, rm, cf, hx, ho, heq⟩
        · exact Int.le_trans (hi.bytes fd' pc c hold happ) hle
        · simp only [leavesRoom, hpc, hx] at hg
          have := hg (hrq ▸ ho) fd' pc c hne hold happ
          omega

/-- **The capacities are kept** in every run whose commits leave the room that
other workers have tested for. -/
theorem capacity_kept {ram nfile : Int} {sockname : Bytes} {s : Sys} (hram : 1 ≤ ram)
    (hnfile : 1 ≤ nfile) (h : Reach step leavesRoom (init ram nfile sockname) s) :
    0 ≤ s.shared.storage.nfileDispo ∧ 0 ≤ s.shared.storage.ramDispo ∧
      s.store.total (fun _ => 1) ≤ s.shared.storage.nfileTot ∧
      s.store.total (·.fileSz) ≤ s.shared.storage.ramTot := by
  have hi := h.invariant RoomInv (room_init sockname hram hnfile)
    fun _ _ _ hi hg hs => room_step hi hg hs
  have hn : 0 ≤ s.shared.storage.nfileDispo := hi.nfile
  have hr : 0 ≤ s.shared.storage.ramDispo := hi.ram
  refine ⟨hn, hr, ?_, ?_⟩
  · rw [hi.base.balanced.nfile]
    show s.shared.storage.nfileTot - s.shared.storage.nfileDispo ≤ _
    omega
  · rw [hi.base.balanced.ram]
    show s.shared.storage.ramTot - s.shared.storage.ramDispo ≤ _
    omega

/-- `leavesRoom` where only the clients `fds` are served. -/
def leavesRoomTest (fds : List Nat) (s : Sys) : Label → Bool
  | .work fd =>
    match s.pc fd with
    | some (.insert _ _ .commit) =>
      others fds s fd fun pc => !inserting pc || decide (1 < s.store.nfileDispo)
    | some (.update _ c _ _ .commit) =>
      others fds s fd fun pc => (appending pc).all fun c' =>
        decide ((c.length : Int) + c'.length ≤ s.store.ramDispo)
    | _ => true
  | _ => true

theorem leavesRoom_of_test {fds : List Nat} {s : Sys} {l : Label} (hs : Only fds s)
    (h : leavesRoomTest fds s l = true) : leavesRoom s l := by
  cases l with
  | work fd =>
    simp only [leavesRoomTest] at h
    simp only [leavesRoom]
    split
    · next hpc =>
      rw [hpc] at h
      intro fd' pc hne hpc' hins
      simpa [hins] using others_pass hs h fd' pc hne hpc'
    · next hpc =>
      rw [hpc] at h
      intro _ fd' pc c' hne hpc' happ
      simpa [happ] using others_pass hs h fd' pc hne hpc'
    · trivial
  | _ => trivial

/-- Two workers take the two slots: both test before either inserts, and both have
tested for their bytes before either appends. -/
theorem capacity_kept_two :
    ∃ s, Reach step leavesRoom (init 3 2 []) s ∧ s.shared.storage.nfileDispo = 0 ∧
      s.shared.storage.ramDispo = 0 ∧ s.store.total (fun _ => 1) ≤ 2 ∧
      s.store.total (·.fileSz) ≤ 3 := by
  obtain ⟨s, hr, hp⟩ := Reach.of_guarded_test step
    (fun s l => among [4, 5] s l && leavesRoomTest [4, 5] s l) (init 3 2 [])
    (List.flatten [[.accept 4, .accept 5, .request 4 (.openFile [47, 97] [49]),
        .request 5 (.openFile [47, 98] [49])], works 4 2, works 5 2, works 4 2, works 5 2,
        [.request 4 (.appendToFile [47, 97] [120]),
        .request 5 (.appendToFile [47, 98] [121, 122])], works 4 6, works 5 6, works 4 3, works 5 3])
    (fun s => s.shared.storage.nfileDispo == 0 && s.shared.storage.ramDispo == 0 &&
      s.shared.storage.nfileTot == 2 && s.shared.storage.ramTot == 3) (by decide +kernel)
  simp only [Bool.and_eq_true, beq_iff_eq] at hp
  obtain ⟨⟨⟨hn, hr₀⟩, hnt⟩, hrt⟩ := hp
  have hreach : Reach step leavesRoom (init 3 2 []) s :=
    reach_of_test (fun s l hs ht => leavesRoom_of_test hs ht) hr
  obtain ⟨-, -, hfiles, hbytes⟩ := capacity_kept (by decide) (by decide) hreach
  exact ⟨s, hreach, hn, hr₀, hnt ▸ hfiles, hrt ▸ hbytes⟩

/-- Two workers both see the only slot free and both insert. -/
theorem slot_taken_twice :
    ∃ s, Reach step anyStep (init 10 1 []) s ∧ s.shared.storage.nfileDispo < 0 := by
  obtain ⟨s, hr, hp⟩ := Reach.of_run_test step (init 10 1 [])
    [.accept 4, .accept 5, .request 4 (.openFile [47, 97] [49]),
      .request 5 (.openFile [47, 98] [49]), .work 4, .work 4, .work 5, .work 5, .work 4, .work 5]
    (fun s => decide (s.shared.storage.nfileDispo < 0)) (by decide +kernel)
  exact ⟨s, hr, of_decide_eq_true hp⟩

end FileStorage.System
