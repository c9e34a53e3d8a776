import FileStorage.System.Capacity

/-!
# The statistics of a run with one request at a time

`max_mem_used`, `max_nfile` and `cnt_file_removed` are compared with what they
stand for: the greatest use of memory and of slots in all the states that the
run has gone through, and the number of files that were removed.

The removals are counted where they happen. The peaks are sampled in one place
only, behind the update of an APPEND (`Sampled`). Memory is taken nowhere else,
so its peak is never missed; slots are taken by OPEN, and `statistics_iff` says
that the peak of the slots is right exactly if an APPEND was sampled at it.
-/

namespace FileStorage.System

open FileStorage.Lib FileStorage.Storage FileStorage.Worker

/-- No request is being handled. -/
def idle (s : Sys) : Prop := ∀ fd, s.job fd = none

/-- A request is taken only when no other is being handled. -/
def oneAtATime (s : Sys) : Label → Prop
  | .request _ _ => idle s
  | _ => True

def usedRam (s : Sys) : Int := s.shared.storage.ramTot - s.shared.storage.ramDispo

def usedFiles (s : Sys) : Int := s.shared.storage.nfileTot - s.shared.storage.nfileDispo

/-- A worker is about to update the statistics. -/
def sampling (s : Sys) : Prop := ∃ fd j a, s.job fd = some j ∧ j.pc = .appStats a

/-- The nodes that were inserted and are not stored any more. -/
def removedNodes (st : InfoStorage) : Finset NodeId :=
  (Finset.range st.brk).filter fun n => ¬ st.Stored n

/-- The statistics are the peaks of the states gone through, and the total. -/
structure TrueStatistics (s : Sys) (past : List Sys) : Prop where
  maxMemUsed : IsGreatest {u | ∃ x ∈ s :: past, usedRam x = u} s.shared.statistics.maxMemUsed
  maxNfile : IsGreatest {u | ∃ x ∈ s :: past, usedFiles x = u} s.shared.statistics.maxNfile
  cntFileRemoved : s.shared.statistics.cntFileRemoved = (removedNodes s.shared.storage).card

/-- No slot was ever taken, or the slots were sampled when most of them were
taken. -/
def PeakSampled (s : Sys) (past : List Sys) : Prop :=
  (∀ x ∈ s :: past, usedFiles x ≤ 0) ∨
    ∃ x ∈ s :: past, sampling x ∧ ∀ y ∈ s :: past, usedFiles y ≤ usedFiles x

/-! ## One step -/

section

variable {rq : Request} {pc : Pc} {sh : Shared} {e : Effect}

/-- Removals, insertions and free slots move together. -/
def removalBalance (sh : Shared) : Int :=
  sh.statistics.cntFileRemoved - sh.storage.brk - sh.storage.nfileDispo

theorem removalBalance_setStorage {st : InfoStorage} (hb : st.brk = sh.storage.brk)
    (hn : st.nfileDispo = sh.storage.nfileDispo) :
    removalBalance (sh.setStorage st) = removalBalance sh := by
  show sh.statistics.cntFileRemoved - st.brk - st.nfileDispo = _
  rw [hb, hn]
  rfl

theorem removalBalance_removed {r : Removal} {n : NodeId} {f : File}
    (hs : r.storage.store = sh.storage.store.remove n f)
    (hk : r.nfileRemoved = sh.statistics.cntFileRemoved + 1) :
    removalBalance (sh.removed r) = removalBalance sh := by
  have hb : r.storage.brk = sh.storage.brk := congrArg Store.brk hs
  have hn : r.storage.nfileDispo = sh.storage.nfileDispo + 1 := congrArg Store.nfileDispo hs
  show r.nfileRemoved - r.storage.brk - r.storage.nfileDispo = _
  rw [hk, hb, hn]
  unfold removalBalance
  omega

/-- A step samples the peaks, or leaves them alone. -/
structure Unsampled (sh sh' : Shared) : Prop where
  mem : sh'.statistics.maxMemUsed = sh.statistics.maxMemUsed
  nfile : sh'.statistics.maxNfile = sh.statistics.maxNfile
  removed : removalBalance sh' = removalBalance sh

theorem unsampled_insert {x : Node} {rm : Bytes} {p : InsPc}
    (h : insertStep rq x rm p sh = some e) : Unsampled sh e.shared := by
  cases insertStep_cases h with
  | go => exact ⟨rfl, rfl, rfl⟩
  | fail => exact ⟨rfl, rfl, rfl⟩
  | evict hr =>
    obtain ⟨f, -, -, hs, -, hk⟩ := store_removeFile hr
    exact ⟨rfl, rfl, removalBalance_removed hs hk⟩
  | @commit st hst =>
    have hs := store_insertSection hst
    have hb : st.brk = sh.storage.brk + 1 := congrArg Store.brk hs
    have hn : st.nfileDispo = sh.storage.nfileDispo - 1 := congrArg Store.nfileDispo hs
    refine ⟨rfl, rfl, ?_⟩
    show sh.statistics.cntFileRemoved - st.brk - st.nfileDispo = _
    rw [hb, hn, Nat.cast_succ]
    unfold removalBalance
    omega

theorem unsampled_update {n : NodeId} {c rm : Bytes} {cf : Option Ptr} {p : UpdPc}
    (h : updateStep rq n c rm cf p sh = some e) : Unsampled sh e.shared := by
  cases updateStep_cases h with
  | go => exact ⟨rfl, rfl, rfl⟩
  | fail => exact ⟨rfl, rfl, rfl⟩
  | deny => exact ⟨rfl, rfl, rfl⟩
  | evict hr =>
    obtain ⟨f, -, -, hs, -, hk⟩ := store_removeFile hr
    exact ⟨rfl, rfl, removalBalance_removed hs hk⟩
  | delete hr =>
    obtain ⟨f, -, hs, -, hk⟩ := store_oversizeSection hr
    exact ⟨rfl, rfl, removalBalance_removed hs hk⟩
  | @commit st hst =>
    obtain ⟨f, -, -, hs⟩ := store_updateSection hst
    exact ⟨rfl, rfl, removalBalance_setStorage (congrArg Store.brk hs)
      (congrArg Store.nfileDispo hs)⟩

/-- Only the statistics block of APPEND samples. -/
theorem wstep_unsampled (h : wstep rq pc sh = some e) (hpc : ∀ a, pc ≠ .appStats a) :
    Unsampled sh e.shared := by
  cases wstep_cases h with
  | go => exact ⟨rfl, rfl, rfl⟩
  | insert he => exact unsampled_insert he
  | update he => exact unsampled_update he
  | openTake hst =>
    obtain ⟨f, -, -, hs⟩ := store_openSection hst
    exact ⟨rfl, rfl, removalBalance_setStorage (congrArg Store.brk hs)
      (congrArg Store.nfileDispo hs)⟩
  | closeTake hst =>
    obtain ⟨f, -, -, hs⟩ := store_closeSection hst
    exact ⟨rfl, rfl, removalBalance_setStorage (congrArg Store.brk hs)
      (congrArg Store.nfileDispo hs)⟩
  | readSend => exact ⟨rfl, rfl, rfl⟩
  | nSend _ hst hm =>
    obtain ⟨-, hs⟩ := store_readNSection hst
    rw [if_neg hm] at hs
    exact ⟨rfl, rfl, removalBalance_setStorage (congrArg Store.brk hs)
      (congrArg Store.nfileDispo hs)⟩
  | stats => exact absurd rfl (hpc _)
  | closeConn => exact ⟨rfl, rfl, rfl⟩
  | reply => exact ⟨rfl, rfl, rfl⟩

end

/-! ## Runs -/

section

variable {s t : Sys} {past : List Sys} {l : Label}

/-- Only the worker at work is at the statistics. -/
def single (s : Sys) : Prop := ∀ fd fd' j j', s.job fd = some j → s.job fd' = some j' → fd = fd'

theorem single_step (h : single s) (hg : oneAtATime s l) (hs : step s l = some t) : single t := by
  rcases step_cases hs with ⟨fd, rfl, -, rfl⟩ | ⟨fd, op, rfl, -, -, rfl⟩ |
      ⟨fd, j, e, rfl, hj, -, rfl⟩
  · exact h
  · intro fd₁ fd₂ j₁ j₂ h₁ h₂
    rcases job_taken h₁ with ⟨rfl, -⟩ | ⟨-, hold⟩
    · rcases job_taken h₂ with ⟨rfl, -⟩ | ⟨-, hold⟩
      · rfl
      · rw [hg fd₂] at hold
        cases hold
    · rw [hg fd₁] at hold
      cases hold
  · intro fd₁ fd₂ j₁ j₂ h₁ h₂
    have hold : ∀ {fd' j'}, (s.after fd j e).job fd' = some j' → ∃ i, s.job fd' = some i := by
      intro fd' j' h'
      rcases job_after h' with ⟨rfl, -⟩ | ⟨-, hold⟩
      · exact ⟨j, hj⟩
      · exact ⟨j', hold⟩
    obtain ⟨i₁, hi₁⟩ := hold h₁
    obtain ⟨i₂, hi₂⟩ := hold h₂
    exact h fd₁ fd₂ i₁ i₂ hi₁ hi₂

/-- What a step does to the statistics: it samples, with nobody else at it; or
it leaves the peaks alone, and was not about to sample, or still is. -/
theorem statistics_step (hone : single s) (hg : oneAtATime s l) (hs : step s l = some t) :
    (sampling s ∧ ¬ sampling t ∧ t.shared = s.shared.sample) ∨
      (Unsampled s.shared t.shared ∧
        (¬ sampling s ∨ (sampling t ∧ t.shared = s.shared))) := by
  rcases step_cases hs with ⟨fd, rfl, -, rfl⟩ | ⟨fd, op, rfl, -, -, rfl⟩ |
      ⟨fd, j, e, rfl, hj, he, rfl⟩
  · refine .inr ⟨⟨rfl, rfl, rfl⟩, ?_⟩
    by_cases hsam : sampling s
    · exact .inr ⟨hsam, rfl⟩
    · exact .inl hsam
  · refine .inr ⟨⟨rfl, rfl, rfl⟩, .inl ?_⟩
    rintro ⟨fd', j', a, hj', -⟩
    rw [hg fd'] at hj'
    cases hj'
  · by_cases hpc : ∃ a, j.pc = .appStats a
    · obtain ⟨a, hpc⟩ := hpc
      rw [hpc] at he
      cases he
      refine .inl ⟨⟨fd, j, a, hj, hpc⟩, ?_, rfl⟩
      rintro ⟨fd', j', a', hj', hpc'⟩
      rcases job_after hj' with ⟨-, q, hq, rfl⟩ | ⟨hne, hold⟩
      · cases hq
        cases hpc'
      · exact hne (hone fd' fd _ _ hold hj)
    · refine .inr ⟨wstep_unsampled he fun a ha => hpc ⟨a, ha⟩, .inl ?_⟩
      rintro ⟨fd', j', a, hj', hpc'⟩
      obtain rfl := hone fd' fd _ _ hj' hj
      rw [hj] at hj'
      cases hj'
      exact hpc ⟨a, hpc'⟩

/-- The greatest of the sampled values, so far. -/
structure Sampled (used stat : Sys → Int) (s : Sys) (past : List Sys) : Prop where
  attained : stat s = 0 ∨ ∃ x ∈ s :: past, sampling x ∧ used x = stat s
  nonneg : 0 ≤ stat s
  covers : ∀ x ∈ s :: past, sampling x → used x ≤ stat s ∨ (sampling s ∧ used x = used s)

/-- A value that is sampled by `sample`. -/
structure SampledBy (used stat : Sys → Int) : Prop where
  shared : ∀ s t : Sys, t.shared = s.shared → used t = used s
  sampled : ∀ s t : Sys, t.shared = s.shared.sample →
    used t = used s ∧ stat t = max (stat s) (used s)
  kept : ∀ s t : Sys, Unsampled s.shared t.shared → stat t = stat s

theorem sampledBy_ram : SampledBy usedRam fun s => s.shared.statistics.maxMemUsed where
  shared s t h := by unfold usedRam; rw [h]
  sampled s t h := by unfold usedRam; rw [h]; exact ⟨rfl, rfl⟩
  kept s t h := h.mem

theorem sampledBy_nfile : SampledBy usedFiles fun s => s.shared.statistics.maxNfile where
  shared s t h := by unfold usedFiles; rw [h]
  sampled s t h := by unfold usedFiles; rw [h]; exact ⟨rfl, rfl⟩
  kept s t h := h.nfile

theorem Sampled.step {used stat : Sys → Int} (hby : SampledBy used stat)
    (h : Sampled used stat s past) (hone : single s) (hg : oneAtATime s l)
    (hs : step s l = some t) : Sampled used stat t (s :: past) := by
  rcases statistics_step hone hg hs with ⟨hsam, hnot, hshared⟩ | ⟨hun, hor⟩
  · obtain ⟨hused, hstat⟩ := hby.sampled s t hshared
    refine ⟨?_, ?_, fun x hx hxs => ?_⟩
    · rcases Int.le_total (used s) (stat s) with hle | hle
      · rw [hstat, max_eq_left hle]
        refine h.attained.imp_right fun ⟨x, hx, hxs⟩ => ⟨x, List.mem_cons_of_mem t hx, hxs⟩
      · rw [hstat, max_eq_right hle]
        exact .inr ⟨s, List.mem_cons_of_mem t List.mem_cons_self, hsam, rfl⟩
    · rw [hstat]
      exact Int.le_trans h.nonneg (Int.le_max_left _ _)
    · rw [hstat]
      rcases List.mem_cons.mp hx with rfl | hx
      · exact absurd hxs hnot
      · rcases h.covers x hx hxs with hle | ⟨-, heq⟩
        · exact .inl (Int.le_trans hle (Int.le_max_left _ _))
        · exact .inl (heq ▸ Int.le_max_right _ _)
  · have hstat := hby.kept s t hun
    refine ⟨?_, ?_, fun x hx hxs => ?_⟩
    · rw [hstat]
      refine h.attained.imp_right fun ⟨x, hx, hxs⟩ => ⟨x, List.mem_cons_of_mem t hx, hxs⟩
    · rw [hstat]
      exact h.nonneg
    · rw [hstat]
      rcases List.mem_cons.mp hx with rfl | hx
      · exact .inr ⟨hxs, rfl⟩
      · rcases h.covers x hx hxs with hle | ⟨hsam, heq⟩
        · exact .inl hle
        · rcases hor with hnot | ⟨hsamt, hshared⟩
          · exact absurd hsam hnot
          · exact .inr ⟨hsamt, heq.trans (hby.shared s t hshared).symm⟩

/-- The capacities stay. -/
theorem capacity_trans {rq : Request} {A : Bytes → Prop} {pc : Pc} {pc' : Option Pc}
    {st st' : Store} {ev : Option Event} (h : Trans rq A pc st pc' st' ev) :
    st'.ramTot = st.ramTot ∧ st'.nfileTot = st.nfileTot := by
  cases h <;> exact ⟨rfl, rfl⟩

theorem capacity_step (hs : step s l = some t) :
    t.shared.storage.ramTot = s.shared.storage.ramTot ∧
      t.shared.storage.nfileTot = s.shared.storage.nfileTot := by
  rcases step_cases hs with ⟨fd, rfl, -, rfl⟩ | ⟨fd, op, rfl, -, -, rfl⟩ |
      ⟨fd, j, e, rfl, -, -, -⟩
  · exact ⟨rfl, rfl⟩
  · exact ⟨rfl, rfl⟩
  · obtain ⟨j, e, -, rfl, htr⟩ := work_cases hs
    exact capacity_trans htr

/-- The commit of an update is followed by the statistics. -/
theorem commit_trans {rq : Request} {A : Bytes → Prop} {n : NodeId} {c rm : Bytes}
    {cf : Option Ptr} {pc' : Option Pc} {st st' : Store} {ev : Option Event}
    (h : Trans rq A (.update n c rm cf .commit) st pc' st' ev) :
    ∃ a, pc' = some (.appStats a) := by
  cases h with
  | updMove hne => exact absurd rfl hne
  | updFail => exact ⟨_, rfl⟩
  | updCommit => exact ⟨_, rfl⟩

/-- Memory is taken by the update of an APPEND, and the statistics come next. -/
theorem usedRam_step (hb : Base s) (hs : step s l = some t) :
    sampling t ∨ usedRam t ≤ usedRam s := by
  have hcap := (capacity_step hs).1
  rcases step_cases hs with ⟨fd, rfl, -, rfl⟩ | ⟨fd, op, rfl, -, -, rfl⟩ |
      ⟨fd, j, e, rfl, -, -, -⟩
  · exact .inr (Int.le_refl _)
  · exact .inr (Int.le_refl _)
  · obtain ⟨j, e, hj, rfl, htr⟩ := work_cases hs
    rcases (dispo_trans htr hb.sized).2 with hle | ⟨n, c, rm, cf, hpc, -, -⟩
    · have hdispo : s.shared.storage.ramDispo ≤ (s.after fd j e).shared.storage.ramDispo := hle
      refine .inr ?_
      unfold usedRam
      omega
    · have hstats : ∃ a, e.pc = some (.appStats a) := by
        rw [hpc] at htr
        exact commit_trans htr
      obtain ⟨a, ha⟩ := hstats
      refine .inl ⟨fd, ⟨j.rq, .appStats a⟩, a, ?_, rfl⟩
      show Function.update s.job fd (e.pc.map (Job.mk j.rq)) fd = _
      rw [Function.update_self, ha]
      rfl

/-- No use of memory is missed. -/
def RamCovered (s : Sys) (past : List Sys) : Prop :=
  ∀ x ∈ s :: past, usedRam x ≤ s.shared.statistics.maxMemUsed ∨
    (sampling s ∧ usedRam x ≤ usedRam s)

theorem ramCovered_step (h : RamCovered s past) (hb : Base s) (hone : single s)
    (hg : oneAtATime s l) (hs : step s l = some t) : RamCovered t (s :: past) := by
  rcases statistics_step hone hg hs with ⟨hsam, hnot, hshared⟩ | ⟨hun, hor⟩
  · obtain ⟨hused, hstat⟩ := sampledBy_ram.sampled s t hshared
    have hmax : ∀ x ∈ s :: past, usedRam x ≤ t.shared.statistics.maxMemUsed := by
      intro x hx
      rcases h x hx with hle | ⟨-, hle⟩ <;> omega
    intro x hx
    rcases List.mem_cons.mp hx with rfl | hx
    · exact .inl (hused ▸ hmax s List.mem_cons_self)
    · exact .inl (hmax x hx)
  · have hstat : t.shared.statistics.maxMemUsed = s.shared.statistics.maxMemUsed := hun.mem
    intro x hx
    rcases List.mem_cons.mp hx with rfl | hx
    · rcases usedRam_step hb hs with hsam | hle
      · exact .inr ⟨hsam, Int.le_refl _⟩
      · rcases h s List.mem_cons_self with hmax | ⟨hsam, -⟩
        · exact .inl (by omega)
        · rcases hor with hnot | ⟨hsamt, -⟩
          · exact absurd hsam hnot
          · exact .inr ⟨hsamt, Int.le_refl _⟩
    · rcases h x hx with hmax | ⟨hsam, hle⟩
      · exact .inl (by omega)
      · rcases hor with hnot | ⟨hsamt, hshared⟩
        · exact absurd hsam hnot
        · exact .inr ⟨hsamt, by rw [sampledBy_ram.shared s t hshared]; exact hle⟩

/-- What holds all along a run with one request at a time. -/
structure StatInv (s : Sys) (past : List Sys) : Prop where
  base : Base s
  single : single s
  ram : Sampled usedRam (fun s => s.shared.statistics.maxMemUsed) s past
  nfile : Sampled usedFiles (fun s => s.shared.statistics.maxNfile) s past
  covered : RamCovered s past
  removed : removalBalance s.shared = -s.shared.storage.nfileTot

theorem statInv_init (ram nfile : Int) (sockname : Bytes) :
    StatInv (init ram nfile sockname) [] := by
  have hnone : ¬ sampling (init ram nfile sockname) := by
    rintro ⟨fd, j, a, hj, -⟩
    cases hj
  have hused : usedRam (init ram nfile sockname) = 0 := Int.sub_self ram
  refine ⟨base_init ram nfile sockname, (by intro fd fd' j j' hj; cases hj),
    ⟨.inl rfl, Int.le_refl 0, fun x hx hxs => ?_⟩, ⟨.inl rfl, Int.le_refl 0, fun x hx hxs => ?_⟩,
    fun x hx => ?_, ?_⟩
  · rw [List.mem_singleton.mp hx] at hxs
    exact absurd hxs hnone
  · rw [List.mem_singleton.mp hx] at hxs
    exact absurd hxs hnone
  · rw [List.mem_singleton.mp hx, hused]
    exact .inl (Int.le_refl 0)
  · show (0 : Int) - (0 : Nat) - nfile = -nfile
    omega

theorem statInv_step (h : StatInv s past) (hg : oneAtATime s l) (hs : step s l = some t) :
    StatInv t (s :: past) := by
  refine ⟨base_step h.base hs, single_step h.single hg hs,
    h.ram.step sampledBy_ram h.single hg hs, h.nfile.step sampledBy_nfile h.single hg hs,
    ramCovered_step h.covered h.base h.single hg hs, ?_⟩
  have hbalance : removalBalance t.shared = removalBalance s.shared := by
    rcases statistics_step h.single hg hs with ⟨-, -, hshared⟩ | ⟨hun, -⟩
    · rw [hshared]
      rfl
    · exact hun.removed
  rw [hbalance, h.removed, (capacity_step hs).2]

/-- The removed nodes are those handed out and not stored. -/
theorem card_removedNodes (hb : Base s) :
    ((removedNodes s.shared.storage).card : Int) =
      s.shared.storage.brk - usedFiles s := by
  have hfilter : (removedNodes s.shared.storage).card + s.store.stored.card =
      s.shared.storage.brk := by
    have hcard := Finset.card_filter_add_card_filter_not (s := Finset.range s.shared.storage.brk)
      fun n => s.shared.storage.Stored n
    have hstored : s.store.stored =
        (Finset.range s.shared.storage.brk).filter fun n => s.shared.storage.Stored n := by
      ext n
      rw [Store.mem_stored hb.fresh, Finset.mem_filter, Finset.mem_range, stored_iff_files]
      exact ⟨fun ⟨f, hf⟩ => ⟨hb.fresh n f hf, f, hf⟩, fun h => h.2⟩
    rw [hstored, Nat.add_comm]
    rw [Finset.card_range] at hcard
    exact hcard
  have hnfile : s.store.total (fun _ => 1) = usedFiles s := hb.balanced.nfile
  rw [Store.total_one] at hnfile
  omega

end

/-- **After each request, the statistics are the true peaks and totals if and
only if** the greatest number of files was sampled. -/
theorem statistics_iff {ram nfile : Int} {sockname : Bytes} {s : Sys} {past : List Sys}
    (h : Visits step oneAtATime (init ram nfile sockname) s past) (hidle : idle s) :
    TrueStatistics s past ↔ PeakSampled s past := by
  have hi : StatInv s past := h.invariant StatInv (statInv_init ram nfile sockname)
    fun _ _ _ _ _ hi hg hs => statInv_step hi hg hs
  have hnot : ¬ sampling s := by
    rintro ⟨fd, j, a, hj, -⟩
    rw [hidle fd] at hj
    cases hj
  have hinit := h.mem_init
  have hram : IsGreatest {u | ∃ x ∈ s :: past, usedRam x = u}
      s.shared.statistics.maxMemUsed := by
    refine ⟨?_, fun u ⟨x, hx, hu⟩ => ?_⟩
    · rcases hi.ram.attained with hzero | ⟨x, hx, -, heq⟩
      · exact ⟨_, hinit, by rw [hzero]; exact Int.sub_self ram⟩
      · exact ⟨x, hx, heq⟩
    · rcases hi.covered x hx with hle | ⟨hsam, -⟩
      · exact hu ▸ hle
      · exact absurd hsam hnot
  have hremoved : s.shared.statistics.cntFileRemoved = (removedNodes s.shared.storage).card := by
    have hbalance := hi.removed
    rw [card_removedNodes hi.base]
    unfold removalBalance at hbalance
    unfold usedFiles
    omega
  have hzero : usedFiles (init ram nfile sockname) = 0 := Int.sub_self nfile
  constructor
  · rintro ⟨-, ⟨-, hupper⟩, -⟩
    rcases hi.nfile.attained with hstat | ⟨x, hx, hxs, heq⟩
    · exact .inl fun y hy => hstat ▸ hupper ⟨y, hy, rfl⟩
    · exact .inr ⟨x, hx, hxs, fun y hy => heq ▸ hupper ⟨y, hy, rfl⟩⟩
  · intro hpeak
    -- every sampled value is in the statistics by now
    have hcovers : ∀ x ∈ s :: past, sampling x →
        usedFiles x ≤ s.shared.statistics.maxNfile := by
      intro x hx hxs
      rcases hi.nfile.covers x hx hxs with hle | ⟨hsam, -⟩
      · exact hle
      · exact absurd hsam hnot
    have hupper : ∀ y ∈ s :: past, usedFiles y ≤ s.shared.statistics.maxNfile := by
      intro y hy
      rcases hpeak with hnone | ⟨x, hx, hxs, hmax⟩
      · exact Int.le_trans (hnone y hy) hi.nfile.nonneg
      · exact Int.le_trans (hmax y hy) (hcovers x hx hxs)
    refine ⟨hram, ⟨?_, fun u ⟨y, hy, hu⟩ => hu ▸ hupper y hy⟩, hremoved⟩
    rcases hi.nfile.attained with hstat | ⟨x, hx, -, heq⟩
    · exact ⟨_, hinit, by rw [hzero]; exact hstat.symm⟩
    · exact ⟨x, hx, heq⟩

/-- The client is alone, and asks when its last request is answered. -/
def inTurn (fd : Nat) (s : Sys) (l : Label) : Bool :=
  among [fd] s l && match l with
    | .request _ _ => (s.job fd).isNone
    | _ => true

/-- The runs of a client that is alone handle one request at a time. -/
theorem visits_inTurn {fd : Nat} {ram nfile : Int} {sockname : Bytes} {p : Sys × List Sys}
    (h : Reach (remember step) (fun p l => inTurn fd p.1 l = true) (init ram nfile sockname, []) p) :
    Visits step oneAtATime (init ram nfile sockname) p.1 p.2 ∧
      ((p.1.job fd).isNone = true → idle p.1) := by
  have hidle : ∀ p, Reach (remember step) (fun p l => inTurn fd p.1 l = true)
      (init ram nfile sockname, []) p → (p.1.job fd).isNone = true → idle p.1 := by
    intro p hp hnone fd'
    have hsole : Reach step (fun s l => among [fd] s l = true) (init ram nfile sockname) p.1 :=
      (Reach.visits (G := fun s l => inTurn fd s l = true) hp).reach.mono
        fun s l hl => (Bool.and_eq_true_iff.mp hl).1
    cases hj : p.1.job fd' with
    | none => rfl
    | some j =>
      rw [← List.mem_singleton.mp (only_of_among hsole fd' j hj), hj] at hnone
      cases hnone
  refine ⟨Reach.visits (h.strengthen fun p l hp hl => ?_), hidle p h⟩
  cases l with
  | request fd' op => exact hidle p hp (Bool.and_eq_true_iff.mp hl).2
  | _ => trivial

/-- The worker of the client is about to update the statistics. -/
def samplingAt (fd : Nat) (s : Sys) : Bool :=
  match s.pc fd with
  | some (.appStats _) => true
  | _ => false

theorem sampling_of_samplingAt {fd : Nat} {s : Sys} (h : samplingAt fd s = true) : sampling s := by
  unfold samplingAt at h
  split at h
  · next a hpc =>
    obtain ⟨j, hj, ha⟩ := Option.map_eq_some_iff.mp hpc
    exact ⟨fd, j, a, hj, ha⟩
  · cases h

/-- After one file was created and written, the statistics are right. -/
theorem statistics_written :
    ∃ s past, Visits step oneAtATime (init 10 2 []) s past ∧ idle s ∧ usedFiles s = 1 ∧
      TrueStatistics s past := by
  obtain ⟨⟨s, past⟩, hr, hp⟩ := Reach.of_guarded_test (remember step) (fun p l => inTurn 4 p.1 l)
    (init 10 2 [], [])
    (List.flatten [[.accept 4, .request 4 (.openFile [47, 97] [49])], works 4 4,
      [.request 4 (.appendToFile [47, 97] [120])], works 4 9])
    (fun p => (p.1.job 4).isNone && (usedFiles p.1 == 1 &&
      ((p.1 :: p.2).any (fun x => samplingAt 4 x && usedFiles x == 1) &&
        (p.1 :: p.2).all fun x => decide (usedFiles x ≤ 1)))) (by decide +kernel)
  obtain ⟨hv, hidle⟩ := visits_inTurn hr
  simp only [Bool.and_eq_true, beq_iff_eq, List.any_eq_true, List.all_eq_true,
    decide_eq_true_eq] at hp
  obtain ⟨hnone, hused, ⟨x, hx, hsam, hone⟩, hall⟩ := hp
  refine ⟨s, past, hv, hidle hnone, hused, (statistics_iff hv (hidle hnone)).mpr (.inr ?_)⟩
  exact ⟨x, hx, sampling_of_samplingAt hsam, fun y hy => hone ▸ hall y hy⟩

/-- After one file was created, `max_nfile` is still 0. -/
theorem statistics_missed :
    ∃ s past, Visits step oneAtATime (init 10 2 []) s past ∧ idle s ∧ ¬ TrueStatistics s past := by
  obtain ⟨⟨s, past⟩, hr, hp⟩ := Reach.of_guarded_test (remember step) (fun p l => inTurn 4 p.1 l)
    (init 10 2 [], [])
    (List.flatten [[.accept 4, .request 4 (.openFile [47, 97] [49])], works 4 4])
    (fun p => (p.1.job 4).isNone && (usedFiles p.1 == 1 &&
      p.1.shared.statistics.maxNfile == 0)) (by decide +kernel)
  obtain ⟨hv, hidle⟩ := visits_inTurn hr
  simp only [Bool.and_eq_true, beq_iff_eq] at hp
  obtain ⟨hnone, hused, hmax⟩ := hp
  refine ⟨s, past, hv, hidle hnone, fun htrue => ?_⟩
  have hle := htrue.maxNfile.2 ⟨s, List.mem_cons_self, hused⟩
  rw [hmax] at hle
  exact absurd hle (by decide)

end FileStorage.System
