import FileStorage.Service.Append
import FileStorage.Service.ReadN
import FileStorage.System.Protocol
import FileStorage.System.Statistics

/-!
# One request at a time, the server is the cache

The system of workers, when a request is taken only while no other is being
handled, and only in a memory where it is `Clean`. Its history is then one of
the service: `serviceStep` accepts it event by event, so every client is sent
what the ideal cache sends, and whenever no request is being handled the memory
represents the files of the cache. A request that is being handled is finished
by its own worker, APPEND included.

The worker's part is `serves`. Between the start of a request and its end the
service is ahead: it has served the request at once, and what it has sent is
still due (`Follows.busy`).
-/

namespace FileStorage.Service

open FileStorage.Lib FileStorage.Storage FileStorage.Worker FileStorage.Worker.Alone
open FileStorage.Worker.Lookup FileStorage.Worker.Scan FileStorage.Worker.ReadN FileStorage.System

/-- Each handler serves its request. -/
theorem serves {lim : Limits} {rq : Request} {sh : Shared} {l : List Entry}
    (h : Represents sh lim l) (hb : Bounded lim l) (hclean : Clean sh.storage rq.fd rq.op) :
    Serves lim rq (entry rq.op) sh (serve lim rq.fd rq.op l).1 (serve lim rq.fd rq.op l).2 := by
  obtain ⟨op, hop⟩ : ∃ op, rq.op = op := ⟨_, rfl⟩
  rw [hop] at hclean ⊢
  cases op with
  | openFile p flag => exact serves_openFile h hb hclean
  | readFile p => exact serves_readFile h hb hclean
  | readNFiles n => exact serves_readNFiles h hb hop hclean
  | appendToFile p content => exact serves_appendToFile h hb hclean
  | closeFile p => exact serves_closeFile h hb hclean
  | closeConnection sockname =>
    refine ⟨sh, ?_, h⟩
    have hsame : (if strncmpEq sockname sh.sockname sh.sockname.length then Answer.ok else .ko) =
        if lim.sockname.isPrefixOf sockname then .ok else .ko := by
      rw [h.sockname]
      refine if_congr ?_ rfl rfl
      rw [strncmpEq_length, List.isPrefixOf_iff_prefix]
    show Ends rq (.closeConn sockname) sh sh [closeConnection lim sockname]
    unfold closeConnection
    rw [← hsame]
    show Ends rq (.closeConn sockname) sh sh (shown (some (.disconnected rq _)))
    exact .last rfl

/-- A request is taken when no other is being handled, and where it is clean. -/
def cleanly (s : Sys) : Label → Prop
  | .request fd op => idle s ∧ Clean s.shared.storage fd op
  | _ => True

section

variable {lim : Limits} {s t : Sys} {m : State lim} {fd : Nat} {rq : Request} {pc : Pc}
variable {ev : Option Event} {outs : List Output}

/-- The service is where the server is, or has served the request ahead of it. -/
inductive Follows (s : Sys) (m : State lim) : Prop
  | idle (hidle : System.idle s) (due : m.due = [])
      (represents : Represents s.shared lim m.cache.entries)
  | busy {fd : Nat} {rq : Request} {pc : Pc} {sh' : Shared} (job : s.job fd = some ⟨rq, pc⟩)
      (alone : ∀ fd', fd' ≠ fd → s.job fd' = none) (serving : m.serving = some rq)
      (ends : Ends rq pc s.shared sh' m.due) (represents : Represents sh' lim m.cache.entries)

/-- What a worker sends is what was due for its request. -/
theorem observe_shown (hev : ∀ e, ev = some e → System.serves e = some rq)
    (hserving : m.serving = some rq) (hdue : m.due = shown ev ++ outs) :
    observe serviceStep m ev = some { m with due := outs } := by
  obtain ⟨c, serving, due⟩ := m
  change serving = _ at hserving
  change due = _ at hdue
  subst hserving hdue
  cases ev with
  | none => rfl
  | some e =>
    have hrq := hev e rfl
    show serviceStep _ e = _
    cases e with
    | requested | accepted => cases hrq
    | frame | answered | disconnected =>
      cases hrq
      exact if_pos ⟨rfl, rfl⟩
    | _ => rfl

/-- The only worker at work finishes. -/
theorem idle_after (alone : ∀ fd', fd' ≠ fd → s.job fd' = none) {j : Job} {e : Effect}
    (he : e.pc = none) : idle (s.after fd j e) := by
  intro fd'
  show Function.update s.job fd (e.pc.map _) fd' = none
  rw [he]
  by_cases hfd : fd' = fd
  · rw [hfd, Function.update_self]
    rfl
  · rw [Function.update_of_ne hfd]
    exact alone fd' hfd

theorem alone_after (alone : ∀ fd', fd' ≠ fd → s.job fd' = none) {j : Job} {e : Effect} :
    ∀ fd', fd' ≠ fd → (s.after fd j e).job fd' = none := by
  intro fd' hfd
  exact (Function.update_of_ne hfd ..).trans (alone fd' hfd)

theorem follows_accepted (h : Follows s m) : Follows (s.accepted fd) m := by
  cases h with
  | idle hidle due represents => exact .idle hidle due represents
  | busy job alone serving ends represents => exact .busy job alone serving ends represents

/-- The service serves a request at once. -/
theorem follows_taken {op : Op} (h : Follows s m) (hidle : idle s)
    (hclean : Clean s.shared.storage fd op) : m.due = [] ∧
      Follows (s.taken fd op) ⟨m.cache.serve fd op, some ⟨s.nextId, fd, op⟩,
        (serve lim fd op m.cache.entries).2⟩ := by
  cases h with
  | idle _ due represents =>
    obtain ⟨sh', hends, hrep⟩ :=
      @serves lim ⟨s.nextId, fd, op⟩ _ _ represents m.cache.bounded hclean
    refine ⟨due, .busy (Function.update_self ..) (fun fd' hfd => ?_) rfl hends hrep⟩
    exact (Function.update_of_ne hfd ..).trans (hidle fd')
  | busy job =>
    rw [hidle _] at job
    cases job

/-- A worker sends the first of what is due for its request. -/
theorem follows_work {fd' : Nat} {j : Job} {e : Effect} (h : Follows s m)
    (hj : s.job fd' = some j) (hw : wstep j.rq j.pc s.shared = some e) :
    ∃ outs, m.serving = some j.rq ∧ m.due = shown e.event ++ outs ∧
      Follows (s.after fd' j e) { m with due := outs } := by
  cases h with
  | idle hidle =>
    rw [hidle fd'] at hj
    cases hj
  | @busy fd rq pc sh' job alone serving ends represents =>
    obtain rfl : fd' = fd := by
      by_contra hne
      rw [alone fd' hne] at hj
      cases hj
    obtain rfl := Option.some.inj (job.symm.trans hj)
    obtain ⟨due, hdue⟩ : ∃ due, due = m.due := ⟨_, rfl⟩
    rw [← hdue] at ends ⊢
    cases ends with
    | last hw' =>
      obtain rfl := Option.some.inj (hw'.symm.trans hw)
      refine ⟨[], serving, (List.append_nil _).symm, ?_⟩
      exact .idle (idle_after alone rfl) rfl represents
    | next hw' rest =>
      obtain rfl := Option.some.inj (hw'.symm.trans hw)
      exact ⟨_, serving, rfl,
        .busy (Function.update_self ..) (alone_after alone) serving rest represents⟩

theorem follows_step {l : Label} (h : Follows s m) (hg : cleanly s l) (hs : step s l = some t) :
    ∃ ev m', t.log = ev.toList ++ s.log ∧ observe serviceStep m ev = some m' ∧ Follows t m' := by
  rcases step_cases hs with ⟨fd, rfl, -, rfl⟩ | ⟨fd, op, rfl, -, -, rfl⟩ |
      ⟨fd, j, e, rfl, hj, hw, rfl⟩
  · exact ⟨some (.accepted fd), m, rfl, rfl, follows_accepted h⟩
  · obtain ⟨due, hf⟩ := follows_taken h hg.1 hg.2
    exact ⟨some (.requested ⟨s.nextId, fd, op⟩), _, rfl, if_pos due, hf⟩
  · obtain ⟨outs, hserving, hdue, hf⟩ := follows_work h hj hw
    have hsent := observe_shown (fun ev hev => serves_trans (wstep_trans hw) hev) hserving hdue
    exact ⟨e.event, _, rfl, hsent, hf⟩

/-- The worker of a request finishes it. -/
theorem finishes {sh sh' : Shared} (h : Ends rq pc sh sh' outs) :
    ∀ s : Sys, s.shared = sh → s.job fd = some ⟨rq, pc⟩ →
      (∀ fd', fd' ≠ fd → s.job fd' = none) → ∃ k t, run step s (works fd k) = some t ∧ idle t := by
  induction h with
  | @last pc sh sh' ev hw =>
    intro s hsh hj halone
    refine ⟨1, s.after fd ⟨rq, pc⟩ ⟨none, sh', ev⟩, ?_, idle_after halone rfl⟩
    have hstep : step s (.work fd) = some (s.after fd ⟨rq, pc⟩ ⟨none, sh', ev⟩) := by
      simp only [step, hj, hsh, hw, Option.map_some]
    simp only [works, List.replicate_one, run, hstep]
  | @next pc pc' sh sh₁ sh' ev outs hw _ ih =>
    intro s hsh hj halone
    obtain ⟨k, t, hrun, hidle⟩ := ih (s.after fd ⟨rq, pc⟩ ⟨some pc', sh₁, ev⟩) rfl
      (Function.update_self ..) (alone_after halone)
    refine ⟨k + 1, t, ?_, hidle⟩
    have hstep : step s (.work fd) = some (s.after fd ⟨rq, pc⟩ ⟨some pc', sh₁, ev⟩) := by
      simp only [step, hj, hsh, hw, Option.map_some]
    simp only [works, List.replicate_succ, run, hstep]
    exact hrun

end

/-- The empty storage represents the empty cache. -/
theorem represents_init {ram nfile : Int} (sockname : Bytes) (hnfile : 1 ≤ nfile) :
    Represents (init ram nfile sockname).shared ⟨ram, nfile, sockname⟩ [] := by
  have hwf : WellFormed (createStorage ram nfile) :=
    @wellFormed_reach ram nfile (Sequential.init ram nfile) hnfile .init
  refine ⟨hwf, rfl, rfl, rfl, fun _ => .create [] 0, ?_, fun n hn => ?_⟩
  · rfl
  · obtain ⟨f, hf⟩ := stored_iff_files.mp ((hwf.rep.mem n).mp hn)
    cases hf

/-- The service goes along with every clean run. -/
theorem follows_reach {ram nfile : Int} {sockname : Bytes} {s : Sys} (hram : 0 ≤ ram)
    (hnfile : 1 ≤ nfile) (h : Reach step cleanly (init ram nfile sockname) s) :
    ∃ m : State ⟨ram, nfile, sockname⟩,
      replay serviceStep (.empty _ hram (Int.le_trans (Int.zero_le_ofNat 1) hnfile)) s.log =
        some m ∧ Follows s m := by
  refine h.replays Sys.log Follows ⟨rfl, ?_⟩ fun s l t m _ hg hs hf => follows_step hf hg hs
  exact .idle (fun fd => rfl) rfl (represents_init sockname hnfile)

/-- Between two requests nothing is due. -/
theorem Follows.of_idle {lim : Limits} {s : Sys} {m : State lim} (h : Follows s m)
    (hidle : System.idle s) : m.due = [] ∧ Represents s.shared lim m.cache.entries := by
  cases h with
  | idle _ due represents => exact ⟨due, represents⟩
  | busy job =>
    rw [hidle _] at job
    cases job

/-- A request that is being handled is finished by its worker. -/
theorem Follows.of_busy {lim : Limits} {s : Sys} {m : State lim} (h : Follows s m)
    (hbusy : ¬ System.idle s) : ∃ fd k t, run step s (works fd k) = some t ∧ System.idle t := by
  cases h with
  | idle hidle => exact absurd hidle hbusy
  | busy job alone _ ends =>
    obtain ⟨k, t, hrun, hidle⟩ := finishes ends s rfl job alone
    exact ⟨_, k, t, hrun, hidle⟩

/-- **One clean request at a time, the server is the cache**: the service accepts
the history, the memory between two requests represents its files, and the
request that is being handled is finished by its worker. -/
theorem server_is_cache {ram nfile : Int} {sockname : Bytes} {s : Sys} (hram : 0 ≤ ram)
    (hnfile : 1 ≤ nfile) (h : Reach step cleanly (init ram nfile sockname) s) :
    ∃ m : State ⟨ram, nfile, sockname⟩,
      replay serviceStep (.empty _ hram (Int.le_trans (Int.zero_le_ofNat 1) hnfile)) s.log =
        some m ∧
      (idle s → m.due = [] ∧ Represents s.shared ⟨ram, nfile, sockname⟩ m.cache.entries) ∧
      (¬ idle s → ∃ fd k t, run step s (works fd k) = some t ∧ idle t) := by
  obtain ⟨m, hm, hf⟩ := follows_reach hram hnfile h
  exact ⟨m, hm, hf.of_idle, hf.of_busy⟩

/-! ## A run -/

/-- The first file whose name starts with `p` is the file `p`. -/
def firstExact (st : InfoStorage) (p : Bytes) : Bool :=
  (st.nodes.find? (st.matches p)).all fun n => (st.file n).map (·.pathname) == some p

theorem unshadowed_of_firstExact {st : InfoStorage} {p : Bytes} (h : firstExact st p = true) :
    Unshadowed st p := by
  intro l₁ m l₂ hl hext
  have hm := (matches_iff m).mpr (.inr hext)
  unfold firstExact at h
  rw [hl, List.find?_append, List.find?_cons_of_pos hm] at h
  cases hfind : l₁.find? (st.matches p) with
  | some a =>
    rw [hfind] at h
    exact ⟨a, List.mem_of_find?_eq_some hfind, named_iff.mpr (beq_iff_eq.mp h)⟩
  | none =>
    rw [hfind] at h
    exact absurd hext (named_iff.mpr (beq_iff_eq.mp h)).not_extends

/-- A test for clean requests. -/
def cleanTest (st : InfoStorage) : Op → Bool
  | .openFile p _ => firstExact st p && Sequential.insertSound st
  | .readFile p => firstExact st p
  | .readNFiles n => n != 0 || decide (((writtenFiles st).length : Int) ≤ st.nfileDispo)
  | .appendToFile p content => firstExact st p &&
      (decide ((content.length : Int) ≤ st.ramTot) && decide ((content.length : Int) ≤ scope st))
  | .closeFile p => firstExact st p
  | .closeConnection _ => true

theorem clean_of_test {st : InfoStorage} {op : Op} (h : cleanTest st op = true) (fd : Nat) :
    Clean st fd op := by
  cases op with
  | openFile p flag =>
    obtain ⟨hfirst, hsound⟩ := Bool.and_eq_true_iff.mp h
    exact ⟨unshadowed_of_firstExact hfirst, fun _ _ => hsound⟩
  | readFile p => exact unshadowed_of_firstExact h
  | readNFiles n =>
    intro hzero
    rw [hzero] at h
    simpa [cleanTest] using h
  | appendToFile p content =>
    obtain ⟨hfirst, hsizes⟩ := Bool.and_eq_true_iff.mp h
    obtain ⟨hram, hscope⟩ := Bool.and_eq_true_iff.mp hsizes
    refine ⟨unshadowed_of_firstExact hfirst, fun n _ _ => ⟨fun hover => ?_, fun _ => ?_⟩⟩
    · unfold Sequential.oversize at hover
      have hlarge := of_decide_eq_true (Bool.and_eq_true_iff.mp hover).1
      have hfits := of_decide_eq_true hram
      omega
    · exact of_decide_eq_true hscope
  | closeFile p => exact unshadowed_of_firstExact h
  | closeConnection sockname => trivial

/-- One client, with clean requests. -/
def cleanClient (fd : Nat) (s : Sys) (l : Label) : Bool :=
  inTurn fd s l && match l with
    | .request _ op => cleanTest s.shared.storage op
    | _ => true

theorem cleanly_of_cleanClient {fd : Nat} {ram nfile : Int} {sockname : Bytes} {s : Sys}
    (h : Reach step (fun s l => cleanClient fd s l = true) (init ram nfile sockname) s) :
    Reach step cleanly (init ram nfile sockname) s ∧ ((s.job fd).isNone = true → idle s) := by
  have hidle : ∀ s, Reach step (fun s l => cleanClient fd s l = true) (init ram nfile sockname) s →
      (s.job fd).isNone = true → idle s := by
    intro s hs hnone fd'
    have hsole : Reach step (fun s l => among [fd] s l = true) (init ram nfile sockname) s :=
      hs.mono fun s l hl => (Bool.and_eq_true_iff.mp (Bool.and_eq_true_iff.mp hl).1).1
    cases hj : s.job fd' with
    | none => rfl
    | some j =>
      rw [← List.mem_singleton.mp (only_of_among hsole fd' j hj), hj] at hnone
      cases hnone
  refine ⟨h.strengthen fun s l hs hl => ?_, hidle s h⟩
  cases l with
  | request fd' op =>
    obtain ⟨hturn, htest⟩ := Bool.and_eq_true_iff.mp hl
    exact ⟨hidle s hs (Bool.and_eq_true_iff.mp hturn).2, clean_of_test htest fd'⟩
  | _ => trivial

/-- With one slot, the second file evicts the first one, and the memory
represents the cache that holds the second file only. -/
theorem server_is_cache_evicting :
    ∃ s, Reach step cleanly (init 10 1 []) s ∧ s.shared.storage.nodes = [1] ∧
      ∃ m : State ⟨10, 1, []⟩, replay serviceStep (.empty _ (by decide) (by decide)) s.log = some m ∧
        m.due = [] ∧ Represents s.shared ⟨10, 1, []⟩ m.cache.entries := by
  obtain ⟨s, hr, hp⟩ := Reach.of_guarded_test step (cleanClient 4) (init 10 1 [])
    (List.flatten [[.accept 4, .request 4 (.openFile [47, 97] [49])], works 4 4,
      [.request 4 (.appendToFile [47, 97] [120])], works 4 9,
      [.request 4 (.closeFile [47, 97])], works 4 3,
      [.request 4 (.openFile [47, 98] [49])], works 4 11])
    (fun s => (s.job 4).isNone && s.shared.storage.nodes == [1]) (by decide +kernel)
  obtain ⟨hnone, hnodes⟩ := Bool.and_eq_true_iff.mp hp
  obtain ⟨hclean, hidle⟩ := cleanly_of_cleanClient hr
  obtain ⟨m, hm, hrest, -⟩ := server_is_cache (by decide) (by decide) hclean
  exact ⟨s, hclean, beq_iff_eq.mp hnodes, m, hm, hrest (hidle hnone)⟩

end FileStorage.Service
