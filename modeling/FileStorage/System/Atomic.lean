import FileStorage.Lib.Run
import FileStorage.System.Names
import FileStorage.System.Statistics
import FileStorage.Worker.Handles
import FileStorage.Worker.Lookup

/-!
# Every interleaving is a history of an atomic store

A handler looks a file up in one section, polls its owner without the lock,
tests the capacity without the lock, evicts in other sections and commits in a
last one, and any other worker may act in between. `atomicStep` says what the
requests mean when nothing can happen in between: a machine over `Store` that
reads only events, and accepts the event of a request when the request's whole
condition (the name, the flag, the owner, the size) holds of the files at that
moment.

`history_is_atomic`: in every interleaving the history is one that the machine
accepts, and it leads to the files that are stored. So each request takes effect
at one point between its start and its answer or not at all, whatever the
sections around that point have seen.

What the handlers check early and rely on late is in `Claims`, and `Located`
says that a file which is found by name keeps it.
-/

namespace FileStorage.System

open FileStorage.Lib FileStorage.Storage FileStorage.Worker FileStorage.Worker.Lookup

/-- The file of an event, when it passes a test. -/
def fileIf (s : Store) (n : NodeId) (test : File → Bool) : Option File :=
  (s.files n).filter test

/-- The effect of a request, decided in one step. -/
def atomicStep (s : Store) : Event → Option Store
  | .opened ⟨_, fd, .openFile p flag⟩ n =>
    if n = s.brk then
      if mayCreate flag then some (s.insert (createFileNode p fd).toFile) else none
    else
      (fileIf s n fun f => mayOpen flag && p.isPrefixOf f.pathname && f.fdClientId == -1).map
        fun _ => s.setFd n fd
  | .closed ⟨_, fd, .closeFile p⟩ n =>
    (fileIf s n fun f => p.isPrefixOf f.pathname && f.fdClientId == fd).map fun _ => s.setFd n (-1)
  | .appended ⟨_, fd, .appendToFile p c⟩ n content =>
    (fileIf s n fun f => p.isPrefixOf f.pathname && f.fdClientId == fd && content == c &&
      (content.length : Int) ≤ s.ramTot).map fun _ => s.append n content
  | .deleted ⟨_, fd, .appendToFile p c⟩ n =>
    (fileIf s n fun f => p.isPrefixOf f.pathname && f.fdClientId == fd && f.modified == -1 &&
      s.ramTot < (c.length : Int)).map (s.remove n)
  | .evicted ⟨_, _, .openFile _ flag⟩ n =>
    (fileIf s n fun f => mayCreate flag && evictable f).map (s.remove n)
  | .evicted ⟨_, _, .appendToFile _ _⟩ n => (fileIf s n evictable).map (s.remove n)
  | .frame ⟨_, fd, .readFile p⟩ n pathname size content =>
    (fileIf s n fun f => p.isPrefixOf f.pathname && f.fdClientId == fd &&
      f.pathname == pathname && f.fileSz == size && f.contentFile == content).map fun _ => s
  | .frame ⟨_, _, .readNFiles _⟩ n pathname size content =>
    (fileIf s n fun f => f.modified != -1 &&
      f.pathname == pathname && f.fileSz == size && f.contentFile == content).map
        fun _ => s.setFd n (-1)
  | .accepted _ => some s
  | .requested _ => some s
  | .answered _ _ => some s
  | .disconnected _ _ => some s
  | _ => none

theorem fileIf_eq {s : Store} {n : NodeId} {f : File} {test : File → Bool}
    (hf : s.files n = some f) (ht : test f = true) : fileIf s n test = some f := by
  unfold fileIf
  rw [hf, Option.filter_some, if_pos ht]

/-- What a worker inside `UpdateFile` relies on: an unwritten file is still its
own, a file it is about to delete is its own, unwritten and too small for the
capacity, and past the tests the payload fits the capacity. -/
def Claims (rq : Request) (s : Store) : Pc → Prop
  | .update n _ _ _ .test => ∀ f, s.files n = some f → f.modified = -1 → f.fdClientId = (rq.fd : Int)
  | .update n c _ _ .oversize => ∃ f, s.files n = some f ∧ f.modified = -1 ∧
      f.fdClientId = (rq.fd : Int) ∧ s.ramTot < (c.length : Int)
  | .update _ c _ _ p => p.paid = true → (c.length : Int) ≤ s.ramTot
  | _ => True

/-- The file a worker has found has the name it looked for. -/
def Located (rq : Request) (s : Store) (pc : Pc) : Prop :=
  ∀ n, target pc = some n → n < s.brk ∧
    ∀ p f, named rq.op = some p → s.files n = some f → p <+: f.pathname

structure AtomInv (s : Sys) : Prop where
  base : Base s
  handles : ∀ fd j, s.job fd = some j → Handles j.rq j.pc
  located : ∀ fd j, s.job fd = some j → Located j.rq s.store j.pc
  claims : ∀ fd j, s.job fd = some j → Claims j.rq s.store j.pc

theorem atomInv_init (ram nfile : Int) (sockname : Bytes) : AtomInv (init ram nfile sockname) where
  base := base_init ram nfile sockname
  handles := by intro fd j h; cases h
  located := by intro fd j h; cases h
  claims := by intro fd j h; cases h

section

variable {rq rq' : Request} {A : Bytes → Prop} {pc q : Pc} {pc' : Option Pc} {st st' : Store}
variable {ev : Option Event} {n : NodeId} {f : File} {sh : Shared} {e : Effect}

/-! ## What a step leaves of the files of others -/

/-- A worker that deletes a file owns it. -/
def OwnsDeleted (rq : Request) (st : Store) (pc : Pc) : Prop :=
  ∀ n c rm cf, pc = .update n c rm cf .oversize →
    ∀ f, st.files n = some f → f.fdClientId = (rq.fd : Int)

theorem ownsDeleted_of_claims (h : Claims rq st pc) : OwnsDeleted rq st pc := by
  intro n c rm cf hpc f hf
  subst hpc
  obtain ⟨g, hg, -, hown, -⟩ := h
  rw [hf] at hg
  obtain rfl := Option.some.inj hg
  exact hown

theorem closed_of_evictable (h : evictable f = true) : f.fdClientId = -1 := by
  unfold evictable at h
  exact beq_iff_eq.mp (Bool.and_eq_true_iff.mp h).1

/-- An unwritten file is touched by its owner only. -/
theorem spared_trans (h : Trans rq A pc st pc' st' ev) (hd : OwnsDeleted rq st pc)
    (hfresh : st.Fresh) {fd : Nat} (hne : fd ≠ rq.fd) (hf : st.files n = some f)
    (hm : f.modified = -1) (hown : f.fdClientId = (fd : Int)) : st'.files n = some f := by
  -- a file that the step is about has another owner, or has been written
  have other : ∀ {m : NodeId} {g : File}, st.files m = some g →
      (g.fdClientId = (rq.fd : Int) ∨ g.fdClientId = -1 ∨ g.modified ≠ -1) → n ≠ m := by
    intro m g hg hor he
    subst he
    rw [hf] at hg
    obtain rfl := Option.some.inj hg
    rcases hor with h1 | h1 | h1
    · omega
    · omega
    · exact h1 hm
  cases h with
  | openTake hg ho => rw [Store.files_setFd_ne (other hg (.inr (.inl ho)))]; exact hf
  | closeTake hg ho => rw [Store.files_setFd_ne (other hg (.inl ho))]; exact hf
  | nSend _ hg hw => rw [Store.files_setFd_ne (other hg (.inr (.inr hw)))]; exact hf
  | insEvict hg he =>
    have hclosed := closed_of_evictable he
    rw [Store.files_remove_ne (other hg (.inr (.inl hclosed)))]
    exact hf
  | updEvict hg he =>
    have hclosed := closed_of_evictable he
    rw [Store.files_remove_ne (other hg (.inr (.inl hclosed)))]
    exact hf
  | updDelete hg =>
    have hown' := hd _ _ _ _ rfl _ hg
    rw [Store.files_remove_ne (other hg (.inl hown'))]
    exact hf
  | updCommit hg ho => rw [Store.files_append_ne (other hg (.inl ho))]; exact hf
  | insCommit => rw [Store.files_insert_ne (Nat.ne_of_lt (hfresh n f hf))]; exact hf
  | _ => exact hf

/-- An unwritten file was stored unwritten before. -/
theorem unwritten_trans (h : Trans rq A pc st pc' st' ev) (hn : n < st.brk)
    (hf : st'.files n = some f) (hm : f.modified = -1) :
    ∃ g, st.files n = some g ∧ g.modified = -1 := by
  have owner : ∀ {m : NodeId} {v : Int}, (st.setFd m v).files n = some f →
      ∃ g, st.files n = some g ∧ g.modified = -1 := by
    intro m v h
    obtain ⟨g, hg, ⟨rfl, -⟩ | ⟨rfl, -⟩⟩ := Store.of_files_setFd h
    · exact ⟨g, hg, hm⟩
    · exact ⟨f, hg, hm⟩
  cases h with
  | openTake => exact owner hf
  | closeTake => exact owner hf
  | nSend => exact owner hf
  | insEvict => exact ⟨f, (Store.of_files_remove hf).2, hm⟩
  | updEvict => exact ⟨f, (Store.of_files_remove hf).2, hm⟩
  | updDelete => exact ⟨f, (Store.of_files_remove hf).2, hm⟩
  | updCommit =>
    obtain ⟨g, hg, ⟨rfl, -⟩ | ⟨rfl, -⟩⟩ := Store.of_files_append hf
    · have : (1 : Int) = -1 := hm
      omega
    · exact ⟨f, hg, hm⟩
  | insCommit =>
    rcases Store.of_files_insert hf with ⟨rfl, -⟩ | ⟨-, hold⟩
    · exact absurd hn (Nat.lt_irrefl _)
    · exact ⟨f, hold, hm⟩
  | _ => exact ⟨f, hf, hm⟩

theorem brk_trans (h : Trans rq A pc st pc' st' ev) : st.brk ≤ st'.brk := by
  cases h <;> first | exact Nat.le_refl _ | exact Nat.le_succ _

/-- No step changes the name of a file that was there. -/
theorem pathname_trans (h : Trans rq A pc st pc' st' ev) (hn : n < st.brk)
    (hf : st'.files n = some f) : ∃ g, st.files n = some g ∧ g.pathname = f.pathname := by
  rcases name_trans h hf with hold | ⟨x, rm, -, hbrk, -⟩
  · exact hold
  · exact absurd hbrk (Nat.ne_of_lt hn)

/-- What another worker relies on still holds. -/
theorem claims_other (h : Trans rq A pc st pc' st' ev) (hd : OwnsDeleted rq st pc)
    (hfresh : st.Fresh) (hne : rq'.fd ≠ rq.fd) (hloc : Located rq' st q)
    (hc : Claims rq' st q) : Claims rq' st' q := by
  have hcap := (capacity_trans h).1
  cases q with
  | update n c rm cf p =>
    cases p with
    | test =>
      intro f hf hm
      obtain ⟨g, hg, hgm⟩ := unwritten_trans h (hloc n rfl).1 hf hm
      have hown := hc g hg hgm
      rw [spared_trans h hd hfresh hne hg hgm hown] at hf
      obtain rfl := Option.some.inj hf
      exact hown
    | oversize =>
      obtain ⟨f, hf, hm, hown, hlarge⟩ := hc
      exact ⟨f, spared_trans h hd hfresh hne hf hm hown, hm, hown, by rw [hcap]; exact hlarge⟩
    | _ =>
      intro hp
      rw [hcap]
      exact hc hp
  | _ => trivial

theorem located_other (h : Trans rq A pc st pc' st' ev) (hloc : Located rq' st q) :
    Located rq' st' q := by
  intro n hn
  obtain ⟨hlt, hname⟩ := hloc n hn
  refine ⟨Nat.lt_of_lt_of_le hlt (brk_trans h), fun p f hp hf => ?_⟩
  obtain ⟨g, hg, hgf⟩ := pathname_trans h hlt hf
  rw [← hgf]
  exact hname p g hp hg

/-! ## The step of the worker itself -/

/-- A worker that goes on with a file has it from before or has just found it. -/
theorem target_trans (h : Trans rq A pc st pc' st' ev) (hq : pc' = some q)
    (hn : target q = some n) : target pc = some n ∨
      st' = st ∧ ∃ p f, looking pc = some p ∧ st.files n = some f ∧ p <+: f.pathname := by
  cases h with
  | openOld hf hp => cases hq; cases hn; exact .inr ⟨rfl, _, _, rfl, hf, hp⟩
  | readFound hf hp => cases hq; cases hn; exact .inr ⟨rfl, _, _, rfl, hf, hp⟩
  | appFound hf hp => cases hq; cases hn; exact .inr ⟨rfl, _, _, rfl, hf, hp⟩
  | closeFound hf hp => cases hq; cases hn; exact .inr ⟨rfl, _, _, rfl, hf, hp⟩
  | _ => cases hq <;> first | exact .inl hn | cases hn

/-- A worker looks for the name its request is about. -/
theorem looking_of_handles {p : Bytes} (h : Handles rq pc) (hl : looking pc = some p) :
    named rq.op = some p := by
  cases pc <;> cases hl <;> (have hop : rq.op = _ := h; rw [hop]; rfl)

theorem located_own (h : Trans rq A pc st pc' st' ev) (hfresh : st.Fresh) (hh : Handles rq pc)
    (hloc : Located rq st pc) (hq : pc' = some q) : Located rq st' q := by
  intro n hn
  rcases target_trans h hq hn with hold | ⟨rfl, p, f, hl, hf, hp⟩
  · exact located_other h hloc n hold
  · refine ⟨hfresh n f hf, fun p' f' hp' hf' => ?_⟩
    rw [hf] at hf'
    rw [looking_of_handles hh hl] at hp'
    obtain rfl := Option.some.inj hf'
    obtain rfl := Option.some.inj hp'
    exact hp

/-- Memory in use is never negative. -/
theorem ramDispo_le (hb : st.Balanced) (hs : st.Sized) : st.ramDispo ≤ st.ramTot := by
  have hnonneg : 0 ≤ st.total (·.fileSz) := by
    refine Finset.sum_nonneg fun n _ => ?_
    show 0 ≤ ((st.files n).map (·.fileSz)).getD 0
    cases hf : st.files n with
    | none => exact Int.le_refl _
    | some f =>
      show 0 ≤ f.fileSz
      rw [hs n f hf]
      exact Int.natCast_nonneg _
  have hram := hb.ram
  omega

theorem claims_own (hc : Claims rq sh.storage.store pc) (hw : wstep rq pc sh = some e)
    (hq : e.pc = some q) (hroom : sh.storage.ramDispo ≤ sh.storage.ramTot) :
    Claims rq e.shared.storage.store q := by
  cases wstep_cases hw with
  | go hg =>
    cases hq
    cases hg with
    | appStart hn ho =>
      intro f hf hm
      rw [file_of_heap hn] at hf
      obtain rfl := Option.some.inj hf
      exact ho
    | _ => trivial
  | insert he =>
    cases insertStep_cases he <;> cases hq <;> trivial
  | @update n c rm cf p _ he =>
    cases updateStep_cases he with
    | go hg =>
      cases hq
      cases hg with
      | large hl hn hm =>
        have hlarge : sh.storage.ramTot < (c.length : Int) := by omega
        exact ⟨_, file_of_heap hn, hm, hc _ (file_of_heap hn) hm, hlarge⟩
      | fits room => exact fun _ => Int.le_trans (fits_of_room room) hroom
      | room room => exact fun _ => Int.le_trans (fits_of_room room) hroom
      | wait => exact hc
      | owned => exact hc
      | _ => intro hp; cases hp
    | evict => cases hq; intro hp; cases hp
    | _ => cases hq; trivial
  | nSend => cases hq; trivial
  | _ => cases hq <;> trivial

/-! ## The effect of a step -/

/-- Each event is the effect of its request in the atomic store. -/
theorem atomic_trans (h : Trans rq A pc st pc' st' ev) (hh : Handles rq pc)
    (hloc : Located rq st pc) (hc : Claims rq st pc) :
    observe atomicStep st ev = some st' := by
  obtain ⟨id, fd, op⟩ := rq
  cases h with
  | openTake hf ho =>
    obtain ⟨p, fl, rfl, hmay⟩ := hh
    obtain ⟨hlt, hname⟩ := hloc _ rfl
    have hp := List.isPrefixOf_iff_prefix.mpr (hname p _ rfl hf)
    show (if _ = st.brk then _ else _) = _
    rw [if_neg (Nat.ne_of_lt hlt), fileIf_eq hf (by rw [hmay, hp, ho]; rfl)]
    rfl
  | insCommit =>
    obtain ⟨p, fl, rfl, hmay, rfl⟩ := hh
    show (if st.brk = st.brk then _ else _) = _
    rw [if_pos rfl, if_pos hmay]
  | insEvict hf he =>
    obtain ⟨p, fl, rfl, hmay, -⟩ := hh
    show (fileIf st _ _).map (st.remove _) = _
    rw [fileIf_eq hf (by rw [hmay, he]; rfl)]
    rfl
  | updEvict hf he =>
    obtain ⟨p, rfl⟩ := hh
    show (fileIf st _ _).map (st.remove _) = _
    rw [fileIf_eq hf he]
    rfl
  | updDelete hf =>
    obtain ⟨p, rfl⟩ := hh
    obtain ⟨g, hg, hm, hown, hlarge⟩ := hc
    rw [hf] at hg
    obtain rfl := Option.some.inj hg
    have hp := List.isPrefixOf_iff_prefix.mpr ((hloc _ rfl).2 p _ rfl hf)
    show (fileIf st _ _).map (st.remove _) = _
    rw [fileIf_eq hf (by rw [hp, hm, hown]; simpa using hlarge)]
    rfl
  | updCommit hf ho =>
    obtain ⟨p, rfl⟩ := hh
    have hp := List.isPrefixOf_iff_prefix.mpr ((hloc _ rfl).2 p _ rfl hf)
    have hfits := hc rfl
    show (fileIf st _ _).map (fun _ => st.append _ _) = _
    rw [fileIf_eq hf (by rw [hp, ho]; simpa using hfits)]
    rfl
  | closeTake hf ho =>
    obtain ⟨p, rfl⟩ := hh
    have hp := List.isPrefixOf_iff_prefix.mpr ((hloc _ rfl).2 p _ rfl hf)
    show (fileIf st _ _).map (fun _ => st.setFd _ (-1)) = _
    rw [fileIf_eq hf (by rw [hp, ho]; simp)]
    rfl
  | readSend hf ho =>
    obtain ⟨p, rfl⟩ := hh
    have hp := List.isPrefixOf_iff_prefix.mpr ((hloc _ rfl).2 p _ rfl hf)
    show (fileIf st _ _).map (fun _ => st) = _
    rw [fileIf_eq hf (by rw [hp, ho]; simp)]
    rfl
  | nSend _ hf hm =>
    obtain ⟨k, rfl⟩ := hh
    show (fileIf st _ _).map (fun _ => st.setFd _ (-1)) = _
    rw [fileIf_eq hf (by simpa using hm)]
    rfl
  | _ => rfl

end

theorem atomInv_step {s t : Sys} {l : Label} (hi : AtomInv s) (hs : step s l = some t) :
    AtomInv t := by
  have hbase := base_step hi.base hs
  rcases step_cases hs with ⟨fd, rfl, -, rfl⟩ | ⟨fd, op, rfl, -, -, rfl⟩ |
      ⟨fd, j, e, rfl, hj, hw, rfl⟩
  · exact ⟨hbase, hi.handles, hi.located, hi.claims⟩
  · refine ⟨hbase, fun a i hi' => ?_, fun a i hi' => ?_, fun a i hi' => ?_⟩ <;>
      rcases job_taken hi' with ⟨rfl, rfl⟩ | ⟨-, hold⟩
    · exact handles_entry _ _ op
    · exact hi.handles a i hold
    · intro n hn
      cases op <;> cases hn
    · exact hi.located a i hold
    · cases op <;> trivial
    · exact hi.claims a i hold
  · have htr := wstep_trans hw
    have hd := ownsDeleted_of_claims (hi.claims fd j hj)
    refine ⟨hbase, fun a i hi' => ?_, fun a i hi' => ?_, fun a i hi' => ?_⟩ <;>
      rcases job_after hi' with ⟨rfl, q, hq, rfl⟩ | ⟨hne, hold⟩
    · exact handles_step (hi.handles a j hj) hw hq
    · exact hi.handles a i hold
    · exact located_own htr hi.base.fresh (hi.handles a j hj) (hi.located a j hj) hq
    · exact located_other htr (hi.located a i hold)
    · exact claims_own (hi.claims a j hj) hw hq (ramDispo_le hi.base.balanced hi.base.sized)
    · refine claims_other htr hd hi.base.fresh ?_ (hi.located a i hold) (hi.claims a i hold)
      rw [hi.base.fd a i hold, hi.base.fd fd j hj]
      exact hne

theorem atomInv_reach {G : Sys → Label → Prop} {ram nfile : Int} {sockname : Bytes} {s : Sys}
    (h : Reach step G (init ram nfile sockname) s) : AtomInv s :=
  h.invariant AtomInv (atomInv_init ram nfile sockname)
    fun _ _ _ hi _ hs => atomInv_step hi hs

/-- A step of the system is at most one step of the atomic store. -/
theorem atomic_step {s t : Sys} {l : Label} (hi : AtomInv s) (hs : step s l = some t) :
    ∃ ev m, t.log = ev.toList ++ s.log ∧ observe atomicStep s.store ev = some m ∧ t.store = m := by
  rcases step_cases hs with ⟨fd, rfl, -, rfl⟩ | ⟨fd, op, rfl, -, -, rfl⟩ |
      ⟨fd, j, e, rfl, hj, hw, rfl⟩
  · exact ⟨some (.accepted fd), s.store, rfl, rfl, rfl⟩
  · exact ⟨some (.requested ⟨s.nextId, fd, op⟩), s.store, rfl, rfl, rfl⟩
  · have heff := atomic_trans (wstep_trans hw) (hi.handles fd j hj) (hi.located fd j hj)
      (hi.claims fd j hj)
    exact ⟨e.event, _, rfl, heff, rfl⟩

/-- **Every interleaving is a history of the atomic store**, and the files that
are stored are those the history leads to. -/
theorem history_is_atomic {ram nfile : Int} {sockname : Bytes} {s : Sys}
    (h : Reach step anyStep (init ram nfile sockname) s) :
    replay atomicStep (createStorage ram nfile).store s.log = some s.store := by
  have hrep : ∃ m, replay atomicStep (createStorage ram nfile).store s.log = some m ∧
      s.store = m := by
    refine h.replays Sys.log (fun s m => s.store = m) ⟨rfl, rfl⟩ fun s l t m hr _ hs hR => ?_
    subst hR
    exact atomic_step (atomInv_reach hr) hs
  obtain ⟨m, hm, rfl⟩ := hrep
  exact hm

/-- Client 5 waits for `/a` while client 4 writes and closes it, reads it, and
closes it while client 4 looks for a slot; then client 4 evicts it for `/b`. -/
theorem history_is_atomic_two :
    ∃ s, Reach step anyStep (init 10 1 []) s ∧ s.store.files 0 = none ∧
      (s.store.files 1).isSome = true ∧
      replay atomicStep (createStorage 10 1).store s.log = some s.store := by
  obtain ⟨s, hr, hp⟩ := Reach.of_run_test step (init 10 1 [])
    (List.flatten [[.accept 4, .accept 5, .request 4 (.openFile [47, 97] [49])], works 4 4,
      [.request 4 (.appendToFile [47, 97] [120])], works 4 4,
      [.request 5 (.openFile [47, 97] [48])], works 5 3, works 4 5,
      [.request 4 (.closeFile [47, 97])], works 4 2, works 5 2, works 4 1,
      [.request 5 (.readFile [47, 97]), .request 4 (.openFile [47, 98] [49])], works 5 2,
      works 4 2, works 5 1, [.request 5 (.closeFile [47, 97])], works 5 2, works 4 9])
    (fun s => s.store.files 0 == none && (s.store.files 1).isSome) (by decide +kernel)
  simp only [Bool.and_eq_true, beq_iff_eq] at hp
  exact ⟨s, hr, hp.1, hp.2, history_is_atomic hr⟩

end FileStorage.System
