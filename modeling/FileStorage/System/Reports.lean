import FileStorage.System.Content
import FileStorage.System.Protocol

/-!
# Answers report what their request evicted

`insertCreateFile` and `UpdateFile` collect the names of the files they remove
in `rm_path`, section after section, and the answer `"0"` sends them to the
client. The audit of a history is the atomic store with two more columns: for
each request the names of the files it has evicted so far, and the number of
removals. It refuses an answer that does not report the names.

`answers_report_removals`: the history of every interleaving passes the audit,
and `cnt_file_removed` is its number of removals. So a positive answer lists the
files that were evicted for it, all of them, in order, under the names that they
had, even though other requests evict in between.
-/

namespace FileStorage.System

open FileStorage.Lib FileStorage.Storage FileStorage.Worker

/-- The files that there are, and what has been removed for each request. -/
structure Audit where
  store : Store
  removed : Nat → Bytes
  cntFileRemoved : Int

/-- What an answer says about the removed names; `-1` says nothing. -/
def reports (removed : Bytes) : Answer → Bool
  | .ko => true
  | .ok => removed == []
  | .okRemoved rmPath => rmPath == removed

/-- The name of a stored file. -/
def nameOf (s : Store) (n : NodeId) : Bytes := ((s.files n).map (·.pathname)).getD []

/-- The removed names after an event, as `removeFile` writes them. -/
def withRemoved (s : Store) (removed : Bytes) : Option Event → Bytes
  | some (.evicted _ n) => removed ++ [44] ++ nameOf s n
  | _ => removed

/-- A removed file gives a slot back. -/
def removals : Option Event → Int
  | some (.evicted _ _) => 1
  | some (.deleted _ _) => 1
  | _ => 0

/-- One event of the history in the audit. -/
def auditStep (a : Audit) (ev : Event) : Option Audit :=
  (atomicStep a.store ev).bind fun store =>
    match ev with
    | .evicted rq _ =>
      let removed := withRemoved a.store (a.removed rq.id) (some ev)
      some ⟨store, Function.update a.removed rq.id removed, a.cntFileRemoved + removals (some ev)⟩
    | .answered rq v =>
      if reports (a.removed rq.id) v then some { a with store := store } else none
    | _ => some ⟨store, a.removed, a.cntFileRemoved + removals (some ev)⟩

/-- A worker carries the names it has removed. -/
def Carries (removed : Bytes) : Pc → Prop
  | .insert _ rmPath _ => rmPath = removed
  | .update _ _ rmPath _ _ => rmPath = removed
  | .appStats v => reports removed v = true
  | .reply v => reports removed v = true
  | _ => removed = []

section

variable {rq : Request} {A : Bytes → Prop} {pc q : Pc} {pc' : Option Pc} {st st' : Store}
variable {ev : Option Event} {n : NodeId} {f : File} {sh : Shared} {e : Effect} {removed : Bytes}

theorem nameOf_eq (h : st.files n = some f) : nameOf st n = f.pathname := by
  unfold nameOf
  rw [h]
  rfl

/-- The names that a handler carries are those it has removed. -/
theorem carries_trans (h : Trans rq A pc st pc' st' ev) (hh : Handles rq pc)
    (hq : pc' = some q) (hh' : Handles rq q) (hc : Carries removed pc) :
    Carries (withRemoved st removed ev) q := by
  cases h with
  | insEvict hf =>
    cases hq
    show _ = removed ++ [44] ++ nameOf st _
    rw [nameOf_eq hf, show _ = removed from hc]
  | updEvict hf =>
    cases hq
    show _ = removed ++ [44] ++ nameOf st _
    rw [nameOf_eq hf, show _ = removed from hc]
  | nEnd =>
    -- the handler never sends a list of names
    cases hq
    obtain ⟨k, hop⟩ := hh
    have hperm : permitted rq.op _ = true := hh'
    rw [hop] at hperm
    obtain rfl : removed = [] := hc
    simp only [permitted, Bool.or_eq_true, beq_iff_eq] at hperm
    show reports [] _ = true
    rcases hperm with hv | hv <;> (rw [hv]; rfl)
  | openKo => cases hq; rfl
  | openNew => cases hq; exact hc.symm
  | openOld => cases hq; exact hc
  | openTake => cases hq; exact beq_iff_eq.mpr hc
  | openWait => cases hq; exact hc
  | openGiveUp => cases hq; rfl
  | insMove => cases hq; exact hc
  | insFail => cases hq; rfl
  | insCommit => cases hq; exact beq_iff_eq.mpr hc
  | appStart => cases hq; exact hc.symm
  | updMove => cases hq; exact hc
  | updCommit => cases hq; exact beq_iff_eq.mpr hc
  | closeTake => cases hq; exact beq_iff_eq.mpr hc
  | _ => cases hq <;> first | exact hc | rfl

/-- A removal gives one slot back. -/
theorem removals_trans (h : Trans rq A pc st pc' st' ev) :
    (st'.brk : Int) + st'.nfileDispo = st.brk + st.nfileDispo + removals ev := by
  cases h with
  | insCommit =>
    show ((st.brk + 1 : Nat) : Int) + (st.nfileDispo - 1) = _ + 0
    push_cast
    omega
  | insEvict =>
    show (st.brk : Int) + (st.nfileDispo + 1) = _ + 1
    omega
  | updEvict =>
    show (st.brk : Int) + (st.nfileDispo + 1) = _ + 1
    omega
  | updDelete =>
    show (st.brk : Int) + (st.nfileDispo + 1) = _ + 1
    omega
  | _ => exact (Int.add_zero _).symm

/-- The counter counts removals. -/
theorem cntFileRemoved_step (hw : wstep rq pc sh = some e) :
    e.shared.statistics.cntFileRemoved = sh.statistics.cntFileRemoved + removals e.event := by
  by_cases hst : ∃ v, pc = .appStats v
  · obtain ⟨v, rfl⟩ := hst
    obtain rfl := Option.some.inj hw
    exact (Int.add_zero _).symm
  · have hbal := (wstep_unsampled hw fun v he => hst ⟨v, he⟩).removed
    have hcount : (e.shared.storage.brk : Int) + e.shared.storage.nfileDispo =
        sh.storage.brk + sh.storage.nfileDispo + removals e.event := removals_trans (wstep_trans hw)
    unfold removalBalance at hbal
    omega

/-- The audit follows an event of the request `rq` that the atomic store allows. -/
theorem auditStep_serves {a : Audit} {ev : Event} (hserves : serves ev = some rq)
    (hs : atomicStep a.store ev = some st')
    (hans : ∀ v, ev = .answered rq v → reports (a.removed rq.id) v = true) :
    auditStep a ev = some
      { store := st'
        removed :=
          Function.update a.removed rq.id (withRemoved a.store (a.removed rq.id) (some ev))
        cntFileRemoved := a.cntFileRemoved + removals (some ev) } := by
  have same : Function.update a.removed rq.id (a.removed rq.id) = a.removed :=
    Function.update_eq_self ..
  unfold auditStep
  rw [hs, Option.bind_some]
  cases ev with
  | evicted rq' n =>
    obtain rfl := Option.some.inj hserves
    rfl
  | answered rq' v =>
    obtain rfl := Option.some.inj hserves
    show (if _ then _ else _) = _
    rw [if_pos (hans v rfl)]
    show _ = some (Audit.mk st' (Function.update a.removed rq'.id (a.removed rq'.id))
      (a.cntFileRemoved + 0))
    rw [same, Int.add_zero]
  | accepted => cases hserves
  | requested => cases hserves
  | _ =>
    show _ = some (Audit.mk st' (Function.update a.removed rq.id (a.removed rq.id)) _)
    rw [same]

end

/-- The audit has come to this state. -/
structure Audited (s : Sys) (a : Audit) : Prop where
  store : a.store = s.store
  cntFileRemoved : a.cntFileRemoved = s.shared.statistics.cntFileRemoved
  carried : ∀ fd j, s.job fd = some j → Carries (a.removed j.rq.id) j.pc
  unused : ∀ i, s.nextId ≤ i → a.removed i = []

/-- The empty storage has nothing to report. -/
theorem audited_init (ram nfile : Int) (sockname : Bytes) :
    Audited (init ram nfile sockname) ⟨(createStorage ram nfile).store, fun _ => [], 0⟩ where
  store := rfl
  cntFileRemoved := rfl
  carried := by intro fd j hj; cases hj
  unused := by intro i hi; rfl

section

variable {s : Sys} {a : Audit} {fd : Nat} {op : Op} {j : Job} {e : Effect}

/-- A new request has removed nothing. -/
theorem audited_taken (ha : Audited s a) : Audited (s.taken fd op) a where
  store := ha.store
  cntFileRemoved := ha.cntFileRemoved
  carried := by
    intro b i hi
    rcases job_taken hi with ⟨rfl, rfl⟩ | ⟨-, hold⟩
    · have hnone := ha.unused s.nextId (Nat.le_refl _)
      show Carries (a.removed s.nextId) (entry op)
      rw [hnone]
      cases op <;> rfl
    · exact ha.carried b i hold
  unused := fun i hi => ha.unused i (Nat.le_of_succ_le hi)

theorem audited_after (hi : AtomInv s) (hl : Ledger s) (ha : Audited s a)
    (hj : s.job fd = some j) (hw : wstep j.rq j.pc s.shared = some e) :
    ∃ a', observe auditStep a e.event = some a' ∧ Audited (s.after fd j e) a' := by
  have htr := wstep_trans hw
  have heff := atomic_trans htr (hi.handles fd j hj) (hi.located fd j hj) (hi.claims fd j hj)
  have hcnt := cntFileRemoved_step hw
  have hcarry : ∀ {q : Pc}, e.pc = some q →
      Carries (withRemoved s.store (a.removed j.rq.id) e.event) q := fun hq =>
    carries_trans htr (hi.handles fd j hj) hq (handles_step (hi.handles fd j hj) hw hq)
      (ha.carried fd j hj)
  cases hev : e.event with
  | none =>
    rw [hev] at heff hcnt
    refine ⟨a, rfl, ha.store.trans (Option.some.inj heff), ?_, fun b i hi' => ?_, ha.unused⟩
    · exact ha.cntFileRemoved.trans (hcnt.trans (Int.add_zero _)).symm
    · rcases job_after hi' with ⟨rfl, q, hq, rfl⟩ | ⟨-, hold⟩
      · have hown := hcarry hq
        rw [hev] at hown
        exact hown
      · exact ha.carried b i hold
  | some ev =>
    rw [hev] at heff hcnt
    have hans : ∀ v, ev = .answered j.rq v → reports (a.removed j.rq.id) v = true := by
      intro v he
      subst he
      obtain ⟨-, hpc, -⟩ := answered_trans htr hev
      have hown := ha.carried fd j hj
      rw [hpc] at hown
      exact hown
    refine ⟨_, auditStep_serves (serves_trans htr hev) (ha.store ▸ heff) hans, rfl, ?_,
      fun b i hi' => ?_, fun i hi' => ?_⟩
    · show a.cntFileRemoved + _ = _
      rw [ha.cntFileRemoved]
      exact hcnt.symm
    · rcases job_after hi' with ⟨rfl, q, hq, rfl⟩ | ⟨hne, hold⟩
      · have hown := hcarry hq
        rw [hev, ← ha.store] at hown
        show Carries (Function.update a.removed _ _ _) q
        rw [Function.update_self]
        exact hown
      · show Carries (Function.update a.removed _ _ _) i.pc
        rw [Function.update_of_ne (hl.id_ne hj hne hold)]
        exact ha.carried b i hold
    · have hlt := hi.base.id fd j hj
      show Function.update a.removed _ _ i = []
      rw [Function.update_of_ne (Nat.ne_of_gt (Nat.lt_of_lt_of_le hlt hi'))]
      exact ha.unused i hi'

end

/-- Each step is one event of the audit, or none. -/
theorem audited_step {s t : Sys} {l : Label} {a : Audit} (hi : AtomInv s) (hl : Ledger s)
    (ha : Audited s a) (hs : step s l = some t) :
    ∃ ev a', t.log = ev.toList ++ s.log ∧ observe auditStep a ev = some a' ∧ Audited t a' := by
  rcases step_cases hs with ⟨fd, rfl, hc, rfl⟩ | ⟨fd, op, rfl, hj, hc, rfl⟩ |
      ⟨fd, j, e, rfl, hj, hw, rfl⟩
  · refine ⟨some (.accepted fd), a, rfl, ?_, ha.store, ha.cntFileRemoved, ha.carried, ha.unused⟩
    show some (Audit.mk a.store a.removed (a.cntFileRemoved + 0)) = some a
    rw [Int.add_zero]
  · refine ⟨some (.requested ⟨s.nextId, fd, op⟩), a, rfl, ?_, audited_taken ha⟩
    show some (Audit.mk a.store a.removed (a.cntFileRemoved + 0)) = some a
    rw [Int.add_zero]
  · obtain ⟨a', hobs, ha'⟩ := audited_after hi hl ha hj hw
    exact ⟨e.event, a', rfl, hobs, ha'⟩

/-- **Every interleaving passes the audit**, and `cnt_file_removed` counts its
removals. -/
theorem answers_report_removals {ram nfile : Int} {sockname : Bytes} {s : Sys}
    (h : Reach step anyStep (init ram nfile sockname) s) :
    ∃ removed, replay auditStep ⟨(createStorage ram nfile).store, fun _ => [], 0⟩ s.log =
      some ⟨s.store, removed, s.shared.statistics.cntFileRemoved⟩ := by
  have hrep : ∃ a, replay auditStep ⟨(createStorage ram nfile).store, fun _ => [], 0⟩ s.log =
      some a ∧ Audited s a :=
    h.replays Sys.log Audited ⟨rfl, audited_init ram nfile sockname⟩
      fun s l t a hr _ hs ha => audited_step (atomInv_reach hr) (contentInv_reach hr).ledger ha hs
  obtain ⟨a, hrun, ha⟩ := hrep
  refine ⟨a.removed, hrun.trans ?_⟩
  rw [← ha.store, ← ha.cntFileRemoved]

/-- The steps by which `fd` leaves a closed file of one byte. -/
def leaves (fd : Nat) (pathname : Bytes) : List Label :=
  List.flatten [[.request fd (.openFile pathname [49])], works fd 4,
    [.request fd (.appendToFile pathname [120])], works fd 9,
    [.request fd (.closeFile pathname)], works fd 3]

/-- Client 5 evicts `/a` to create a file while client 4 is inside `UpdateFile`,
which evicts `/b`; each answer reports its own. -/
theorem answers_report_removals_two :
    ∃ s, Reach step anyStep (init 3 4 []) s ∧ s.shared.statistics.cntFileRemoved = 2 ∧
      s.log.head? = some (.answered ⟨10, 4, .appendToFile [47, 100] [120, 121]⟩
        (.okRemoved [44, 47, 98])) ∧
      ∃ removed, replay auditStep ⟨(createStorage 3 4).store, fun _ => [], 0⟩ s.log =
        some ⟨s.store, removed, s.shared.statistics.cntFileRemoved⟩ := by
  obtain ⟨s, hr, hp⟩ := Reach.of_run_test step (init 3 4 [])
    (List.flatten [[.accept 4, .accept 5], leaves 4 [47, 97], leaves 4 [47, 98],
      leaves 4 [47, 99], [.request 4 (.openFile [47, 100] [49])], works 4 4,
      [.request 4 (.appendToFile [47, 100] [120, 121])], works 4 6,
      [.request 5 (.openFile [47, 101] [49])], works 5 6, works 4 3, works 5 5, works 4 7])
    (fun s => s.shared.statistics.cntFileRemoved == 2 &&
      s.log.head? == some (.answered ⟨10, 4, .appendToFile [47, 100] [120, 121]⟩
        (.okRemoved [44, 47, 98]))) (by decide +kernel)
  simp only [Bool.and_eq_true, beq_iff_eq] at hp
  exact ⟨s, hr, hp.1, hp.2, answers_report_removals hr⟩

end FileStorage.System
