import FileStorage.System.Base
import FileStorage.Worker.Retained

/-!
# No worker acts on a removed file

Nothing in the code protects the nodes a worker holds on to (`retained`):
`removeFile` frees a closed file whoever points at it. `keepsRetained` is the
condition that this does no harm: a removal finds nobody else pointing at the
node, the node is not the file that the remover itself appends to, and it is
not taken out of the middle, which leaves the links of its neighbours on the
freed node.

Under it the storage stays a list (`Rep`) and every retained node is stored, in
every interleaving (`ptrInv_step`). So the next step of a worker reads and
writes stored nodes only. It is defined where `UpdateFile` does not read
`current_file` unset either, and `keepsPointers` is both conditions: a run that
meets it never comes to a step that is undefined.
-/

namespace FileStorage.System

open FileStorage.Lib FileStorage.Storage FileStorage.Worker

/-- A removal is at an end of the list, and not of the remover's own target. -/
def removesEnd (s : Sys) : Label → Bool
  | .work fd =>
    match s.pc fd with
    | some pc =>
      (removes s.shared.storage pc).all fun n => !s.shared.storage.inner n && !evictsTarget pc
    | none => true
  | _ => true

/-- Nobody else holds on to a node that is removed. -/
def unheld (s : Sys) : Label → Prop
  | .work fd => ∀ pc n, s.pc fd = some pc → removes s.shared.storage pc = some n →
      ∀ fd' pc', fd' ≠ fd → s.pc fd' = some pc' → n ∉ retained pc'
  | _ => True

/-- The condition on removals. -/
def keepsRetained (s : Sys) (l : Label) : Prop := removesEnd s l = true ∧ unheld s l

/-- The scan of `UpdateFile` goes on with `current_file` only after it was set. -/
def scanSet (s : Sys) : Label → Bool
  | .work fd => (s.pc fd).all fun pc => !scansUnset s.shared.storage pc
  | _ => true

/-- The condition on removals and on the scan. -/
def keepsPointers (s : Sys) (l : Label) : Prop := keepsRetained s l ∧ scanSet s l = true

/-- The storage is a list, and what the workers hold on to is stored. -/
structure PtrInv (s : Sys) : Prop where
  base : Base s
  rep : ∃ l, Rep s.shared.storage l
  stored : ∀ fd pc n, s.pc fd = some pc → n ∈ retained pc → s.shared.storage.Stored n

theorem ptrInv_init (ram nfile : Int) (sockname : Bytes) : PtrInv (init ram nfile sockname) where
  base := base_init ram nfile sockname
  rep := ⟨[], rep_createStorage ram nfile⟩
  stored := by intro fd pc n h; cases h

theorem removesEnd_work {s : Sys} {fd : Nat} {pc : Pc} (hpc : s.pc fd = some pc)
    (hg : removesEnd s (.work fd) = true) :
    ∀ n, removes s.shared.storage pc = some n →
      s.shared.storage.inner n = false ∧ evictsTarget pc = false := by
  intro n hn
  simp only [removesEnd, hpc, hn, Option.all_some, Bool.and_eq_true, Bool.not_eq_true'] at hg
  exact hg

/-- Nothing is held on to before the first section of a handler. -/
theorem retained_entry (op : Op) : retained (entry op) = [] := by
  cases op <;> rfl

theorem ptrInv_step {s t : Sys} {l : Label} (hi : PtrInv s) (hg : keepsRetained s l)
    (h : step s l = some t) : PtrInv t := by
  have hbase := base_step hi.base h
  rcases step_cases h with ⟨fd, rfl, hc, rfl⟩ | ⟨fd, op, rfl, hj, hc, rfl⟩ |
      ⟨fd, j, e, rfl, hj, he, rfl⟩
  · exact ⟨hbase, hi.rep, hi.stored⟩
  · refine ⟨hbase, hi.rep, fun fd' pc n hpc hn => ?_⟩
    rcases pc_taken hpc with ⟨rfl, rfl⟩ | ⟨-, hold⟩
    · rw [retained_entry] at hn
      cases hn
    · exact hi.stored fd' pc n hold hn
  · have hpc : s.pc fd = some j.pc := by unfold Sys.pc; rw [hj]; rfl
    obtain ⟨l, hrep⟩ := hi.rep
    have hend := removesEnd_work hpc hg.1
    have hedit := wstep_edit he (fun x hx => by
      obtain ⟨p, rfl⟩ := hi.base.newborn fd j x hj hx
      exact ⟨rfl, rfl⟩)
    refine ⟨hbase, hedit.rep hrep hi.base.fresh fun n hn => (hend n hn).1,
      fun fd' pc n hpc' hn => ?_⟩
    rcases pc_after hpc' with ⟨rfl, hq⟩ | ⟨hne, hold⟩
    · obtain ⟨hs, hnr⟩ := retained_step he hrep (hi.stored fd' j.pc · hpc) hend hq hn
      exact hedit.stored hi.base.fresh hs hnr
    · refine hedit.stored hi.base.fresh (hi.stored fd' pc n hold hn) fun hr => ?_
      exact hg.2 j.pc n hpc hr fd' pc hne hold hn

theorem ptrInv_reach {ram nfile : Int} {sockname : Bytes} {s : Sys}
    (h : Reach step keepsRetained (init ram nfile sockname) s) : PtrInv s :=
  h.invariant PtrInv (ptrInv_init ram nfile sockname) fun _ _ _ hi hg hs => ptrInv_step hi hg hs

/-- A worker makes its next step, unless its scan goes on with `current_file` unset. -/
theorem PtrInv.defined {s : Sys} {fd : Nat} {pc : Pc} (hi : PtrInv s) (hpc : s.pc fd = some pc)
    (hset : scanSet s (.work fd) = true) : ∃ t, step s (.work fd) = some t := by
  obtain ⟨l, hrep⟩ := hi.rep
  have hscan : scansUnset s.shared.storage pc = false := by
    simpa only [scanSet, hpc, Option.all_some, Bool.not_eq_true'] using hset
  obtain ⟨j, hj, rfl⟩ := Option.map_eq_some_iff.mp hpc
  obtain ⟨e, he⟩ : ∃ e, wstep j.rq j.pc s.shared = some e :=
    wstep_defined hrep hi.base.fresh hi.base.balanced (hi.stored fd j.pc · hpc) hscan
  exact ⟨s.after fd j e, by simp only [step, hj, he, Option.map_some]⟩

/-- **Retained nodes are stored** in every run whose steps meet the condition: no
step reads or writes a removed file, every step that meets the condition is
defined, and an OPEN that takes effect leaves a stored file that the requester
owns. -/
theorem pointers_stay_valid {ram nfile : Int} {sockname : Bytes} {s : Sys}
    (h : Reach step keepsPointers (init ram nfile sockname) s) :
    (∀ fd pc n, s.pc fd = some pc → n ∈ retained pc → s.shared.storage.Stored n) ∧
    (∀ fd pc, s.pc fd = some pc → keepsPointers s (.work fd) →
      ∃ t, step s (.work fd) = some t) ∧
    (∀ fd t rq n, step s (.work fd) = some t → t.log = .opened rq n :: s.log →
      ∃ f, t.shared.storage.file n = some f ∧ f.fdClientId = fd) := by
  have hi := ptrInv_reach (h.mono fun _ _ hg => hg.1)
  refine ⟨hi.stored, fun fd pc hpc hg => hi.defined hpc hg.2, fun fd t rq n hs hlog => ?_⟩
  obtain ⟨j, e, hj, rfl, htr⟩ := work_cases hs
  have hrq : j.rq.fd = fd := hi.base.fd fd j hj
  have hev : e.event = some (.opened rq n) := by
    change e.event.toList ++ s.log = _ at hlog
    cases hev : e.event with
    | none =>
      rw [hev] at hlog
      exact absurd (congrArg List.length hlog) (by simp)
    | some ev =>
      rw [hev] at hlog
      exact congrArg some (List.cons.inj hlog).1
  obtain ⟨-, ho⟩ := opened_trans htr (fun x hx => hrq ▸ hi.base.newborn fd j x hj hx) hev
  exact hrq ▸ ho

/-- `unheld` where only the clients `fds` are served. -/
def unheldTest (fds : List Nat) (s : Sys) : Label → Bool
  | .work fd => (s.pc fd).all fun pc => (removes s.shared.storage pc).all fun n =>
      others fds s fd fun pc' => !(retained pc').contains n
  | _ => true

/-- `keepsPointers` where only the clients `fds` are served. -/
def keepsPointersTest (fds : List Nat) (s : Sys) (l : Label) : Bool :=
  removesEnd s l && unheldTest fds s l && scanSet s l

theorem keepsPointers_of_test {fds : List Nat} {s : Sys} {l : Label} (hs : Only fds s)
    (h : keepsPointersTest fds s l = true) : keepsPointers s l := by
  obtain ⟨hremoves, hset⟩ := Bool.and_eq_true_iff.mp h
  obtain ⟨hend, hunheld⟩ := Bool.and_eq_true_iff.mp hremoves
  refine ⟨⟨hend, ?_⟩, hset⟩
  cases l with
  | work fd =>
    intro pc n hpc hn fd' pc' hne hpc' hmem
    simp only [unheldTest, hpc, hn, Option.all_some] at hunheld
    have hpass := others_pass hs hunheld fd' pc' hne hpc'
    rw [List.contains_iff_mem.mpr hmem] at hpass
    cases hpass
  | _ => trivial

/-- Client 5 waits to append to its file `/b` while client 4 evicts `/a`, which nobody
else points at: client 5 goes on. -/
theorem pointers_stay_valid_two :
    ∃ s, Reach step keepsPointers (init 10 2 []) s ∧ ¬ s.shared.storage.Stored 0 ∧
      s.pc 5 = some (.appLocked 1 [121]) ∧ s.shared.storage.Stored 1 ∧
      ∃ t, step s (.work 5) = some t := by
  obtain ⟨s, hr, hp⟩ := Reach.of_guarded_test step
    (fun s l => among [4, 5] s l && keepsPointersTest [4, 5] s l) (init 10 2 [])
    (List.flatten [[.accept 4, .accept 5, .request 4 (.openFile [47, 97] [49])], works 4 4,
        [.request 4 (.appendToFile [47, 97] [120])], works 4 9,
        [.request 5 (.openFile [47, 98] [49])], works 5 4,
        [.request 4 (.closeFile [47, 97]), .request 5 (.appendToFile [47, 98] [121])], works 4 3,
        works 5 1, [.request 4 (.openFile [47, 99] [49])], works 4 3, works 5 1, works 4 4])
    (fun s => s.pc 5 == some (.appLocked 1 [121]) && !decide (s.shared.storage.Stored 0) &&
      keepsPointersTest [4, 5] s (.work 5)) (by decide +kernel)
  simp only [Bool.and_eq_true, beq_iff_eq, Bool.not_eq_true', decide_eq_false_iff_not] at hp
  obtain ⟨⟨hpc, hgone⟩, hnext⟩ := hp
  have honly : Only [4, 5] s := only_of_among (hr.mono fun _ _ hl => (Bool.and_eq_true_iff.mp hl).1)
  have hreach : Reach step keepsPointers (init 10 2 []) s :=
    reach_of_test (fun s l hs ht => keepsPointers_of_test hs ht) hr
  obtain ⟨hstored, hdefined, -⟩ := pointers_stay_valid hreach
  exact ⟨s, hreach, hgone, hpc, hstored 5 _ 1 hpc (List.mem_singleton_self 1),
    hdefined 5 _ hpc (keepsPointers_of_test honly hnext)⟩

/-- Client 5 has looked `/a` up when client 4 evicts it: the poll of client 5
goes to the freed node. -/
theorem poll_of_a_removed_file :
    ∃ s, Reach step anyStep (init 10 1 []) s ∧ ∃ fd pc n, s.pc fd = some pc ∧ n ∈ retained pc ∧
      ¬ s.shared.storage.Stored n := by
  obtain ⟨s, hr, hp⟩ := Reach.of_run_test step (init 10 1 [])
    (List.flatten [[.accept 4, .accept 5, .request 4 (.openFile [47, 97] [49])], works 4 4,
        [.request 4 (.appendToFile [47, 97] [120])], works 4 9,
        [.request 4 (.closeFile [47, 97])], works 4 3,
        [.request 5 (.openFile [47, 97] [48]), .work 5],
        [.request 4 (.openFile [47, 98] [49])], works 4 7])
    (fun s => s.pc 5 == some (.openPoll 0 0) && !decide (s.shared.storage.Stored 0))
    (by decide +kernel)
  simp only [Bool.and_eq_true, beq_iff_eq, Bool.not_eq_true', decide_eq_false_iff_not] at hp
  exact ⟨s, hr, 5, _, 0, hp.1, List.mem_singleton_self 0, hp.2⟩

end FileStorage.System
