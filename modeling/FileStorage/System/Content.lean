import FileStorage.System.Ledger
import FileStorage.System.Pointers

/-!
# Contents and frames

`committed log n` concatenates the payloads of the APPENDs that the history has
committed on a node, in the order of the commits. `Snapshots` is what the
server promises about contents:

* a stored file holds exactly its committed payloads, and is as long as them;
* those payloads come from APPEND requests, each at most once, and exactly
  those that are not answered `-1`;
* a frame carries the size and the content that the file had when it was sent;
* a worker that is about to send or to extend a content has a stored file.

`content_step` shows the first parts in every run: commit and frame are one
section each. The last part is the one that fails: READ N keeps its cursor, and
APPEND its target, over sections of other workers that may free the node, and
what is then sent or extended is no file's content. It holds under the
condition `keepsRetained` on removals.
-/

namespace FileStorage.System

open FileStorage.Lib FileStorage.Storage FileStorage.Worker

/-- The payloads committed on a node, in commit order (the log is newest
first). -/
def committed : List Event → NodeId → Bytes
  | [], _ => []
  | .appended _ m c :: log, n => if m = n then committed log n ++ c else committed log n
  | _ :: log, n => committed log n

/-- The file whose content the next section sends or extends. -/
def touches : Pc → Option NodeId
  | .readLocked n => some n
  | .readNLoop _ k cur => if 0 < k then cur else none
  | .update n _ _ _ .commit => some n
  | _ => none

/-- What the server promises about contents and frames. -/
structure Snapshots (s : Sys) : Prop where
  content : ∀ n f, s.shared.storage.file n = some f →
    f.fileSz = f.contentFile.length ∧ f.contentFile = committed s.log n
  payloads : ∀ rq n c, .appended rq n c ∈ s.log → ∃ p, rq.op = .appendToFile p c
  once : (appendedIds s.log).Nodup
  answers : ∀ rq p c a, .answered rq a ∈ s.log → rq.op = .appendToFile p c →
    (a ≠ .ko ↔ rq.id ∈ appendedIds s.log)
  frames : ∀ newer rq n p (sz : Int) c older, s.log = newer ++ .frame rq n p sz c :: older →
    c = committed older n ∧ sz = c.length
  live : ∀ fd pc n, s.pc fd = some pc → touches pc = some n → s.shared.storage.Stored n

section

variable {rq rq' : Request} {A : Bytes → Prop} {pc : Pc} {pc' : Option Pc} {st st' : Store}
variable {ev : Option Event} {n : NodeId} {f : File} {c p : Bytes} {sz : Int} {log : List Event}

theorem committed_event (h : isAppend ev = false) :
    committed (ev.toList ++ log) n = committed log n := by
  cases ev with
  | none => rfl
  | some e => cases e <;> first | rfl | cases h

/-- A stored file holds what the history has committed on it. -/
def Tracks (st : Store) (log : List Event) : Prop :=
  ∀ n f, st.files n = some f → f.contentFile = committed log n

/-- Nothing is committed on a node that is not there yet. -/
def Unborn (st : Store) (log : List Event) : Prop := ∀ n, st.brk ≤ n → committed log n = []

theorem content_step (h : Trans rq A pc st pc' st' ev) (hfresh : st.Fresh) (hs : st.Sized)
    (hnew : ∀ x, creating pc = some x → x.contentFile = []) (ht : Tracks st log)
    (hu : Unborn st log) : Tracks st' (ev.toList ++ log) ∧ Unborn st' (ev.toList ++ log) := by
  -- a step that commits nothing and changes no content
  have keep : ∀ {st' : Store}, isAppend ev = false → st'.brk = st.brk →
      (∀ n f, st'.files n = some f → ∃ g, st.files n = some g ∧ f.contentFile = g.contentFile) →
      Tracks st' (ev.toList ++ log) ∧ Unborn st' (ev.toList ++ log) := by
    intro st' hev hb hsame
    refine ⟨fun n f hf => ?_, fun n hn => ?_⟩
    · obtain ⟨g, hg, hc⟩ := hsame n f hf
      rw [committed_event hev, hc, ht n g hg]
    · rw [committed_event hev]
      exact hu n (hb ▸ hn)
  have owner : ∀ {m : NodeId} {v : Int} (n f), (st.setFd m v).files n = some f →
      ∃ g, st.files n = some g ∧ f.contentFile = g.contentFile := by
    intro m v n f hf
    obtain ⟨g, hg, ⟨rfl, -⟩ | ⟨he, -⟩⟩ := Store.of_files_setFd hf
    · exact ⟨g, hg, rfl⟩
    · exact ⟨g, hg, by rw [he]⟩
  have kept : ∀ {m : NodeId} {g : File} (n f), (st.remove m g).files n = some f →
      ∃ g, st.files n = some g ∧ f.contentFile = g.contentFile :=
    fun n f hf => ⟨f, (Store.of_files_remove hf).2, rfl⟩
  cases h with
  | openTake => exact keep rfl rfl owner
  | closeTake => exact keep rfl rfl owner
  | nSend => exact keep rfl rfl owner
  | insEvict => exact keep rfl rfl kept
  | updEvict => exact keep rfl rfl kept
  | updDelete => exact keep rfl rfl kept
  | @insCommit x rm s =>
    refine ⟨fun n f hf => ?_, fun n hn => ?_⟩
    · rcases Store.of_files_insert hf with ⟨rfl, rfl⟩ | ⟨-, hold⟩
      · show x.contentFile = committed log _
        rw [hnew x rfl, hu _ (Nat.le_refl _)]
      · exact ht n f hold
    · exact hu n (Nat.le_of_succ_le hn)
  | @updCommit m c rm cf s f hf =>
    refine ⟨fun n g hg => ?_, fun n hn => ?_⟩
    · show g.contentFile = if m = n then committed log n ++ c else committed log n
      obtain ⟨g', hg', ⟨rfl, rfl⟩ | ⟨he, hne⟩⟩ := Store.of_files_append hg
      · rw [if_pos rfl]
        show g'.contentFile.take g'.fileSz.toNat ++ c = _
        rw [hs.append_content hg', ht _ g' hg']
      · rw [if_neg (Ne.symm hne), he]
        exact ht n g' hg'
    · have hne : m ≠ n := fun e => Nat.lt_irrefl m (Nat.lt_of_lt_of_le (hfresh m f hf) (e ▸ hn))
      show (if m = n then committed log n ++ c else committed log n) = []
      rw [if_neg hne]
      exact hu n hn
  | _ => exact keep rfl rfl fun n f hf => ⟨f, hf, rfl⟩

/-- A frame is read off the file in the section that sends it. -/
theorem frame_trans (h : Trans rq A pc st pc' st' ev)
    (hev : ev = some (.frame rq' n p sz c)) :
    ∃ f, st.files n = some f ∧ c = f.contentFile ∧ sz = f.fileSz := by
  cases h with
  | readSend hf => cases hev; exact ⟨_, hf, rfl, rfl⟩
  | nSend _ hf => cases hev; exact ⟨_, hf, rfl, rfl⟩
  | _ => cases hev

end

/-- The parts of `Snapshots` that hold in every run. -/
structure ContentInv (s : Sys) : Prop where
  base : Base s
  ledger : Ledger s
  tracks : Tracks s.store s.log
  unborn : Unborn s.store s.log
  frames : ∀ newer rq n p (sz : Int) c older, s.log = newer ++ .frame rq n p sz c :: older →
    c = committed older n ∧ sz = c.length

theorem contentInv_init (ram nfile : Int) (sockname : Bytes) :
    ContentInv (init ram nfile sockname) where
  base := base_init ram nfile sockname
  ledger := ledger_init ram nfile sockname
  tracks := by intro n f h; cases h
  unborn := by intro n _; rfl
  frames := by
    intro newer rq n p sz c older h
    cases newer <;> cases h

theorem contentInv_step {s t : Sys} {l : Label} (hi : ContentInv s) (h : step s l = some t) :
    ContentInv t := by
  have hbase := base_step hi.base h
  have hledger := ledger_step hi.base hi.ledger h
  -- a history whose newest event is no frame
  have older : ∀ {ev : Event} {newer : List Event} {rq n p} {sz : Int} {c old},
      (∀ rq n p sz c, ev ≠ .frame rq n p sz c) →
      ev :: s.log = newer ++ .frame rq n p sz c :: old → c = committed old n ∧ sz = c.length := by
    intro ev newer rq n p sz c old hno hlog
    cases newer with
    | nil => exact absurd (List.cons.inj hlog).1 (hno _ _ _ _ _)
    | cons e newer => exact hi.frames newer rq n p sz c old (List.cons.inj hlog).2
  rcases step_cases h with ⟨fd, rfl, hc, rfl⟩ | ⟨fd, op, rfl, hj, hc, rfl⟩ |
      ⟨fd, j, e, rfl, hj, -, -⟩
  · exact ⟨hbase, hledger, hi.tracks, hi.unborn,
      fun newer rq n p sz c old hlog => older (fun _ _ _ _ _ => by simp) hlog⟩
  · exact ⟨hbase, hledger, hi.tracks, hi.unborn,
      fun newer rq n p sz c old hlog => older (fun _ _ _ _ _ => by simp) hlog⟩
  · obtain ⟨j, e, hj, rfl, htr⟩ := work_cases h
    obtain ⟨htracks, hunborn⟩ := content_step htr hi.base.fresh hi.base.sized
      (fun x hx => by
        obtain ⟨p, rfl⟩ := hi.base.newborn fd j x hj hx
        rfl) hi.tracks hi.unborn
    refine ⟨hbase, hledger, htracks, hunborn, fun newer rq n p sz c old hlog => ?_⟩
    change e.event.toList ++ s.log = _ at hlog
    cases hev : e.event with
    | none =>
      rw [hev] at hlog
      exact hi.frames newer rq n p sz c old hlog
    | some ev =>
      rw [hev] at hlog htr
      cases newer with
      | nil =>
        obtain ⟨rfl, rfl⟩ := List.cons.inj hlog
        obtain ⟨f, hf, rfl, rfl⟩ := frame_trans htr rfl
        exact ⟨hi.tracks n f hf, hi.base.sized n f hf⟩
      | cons e' newer => exact hi.frames newer rq n p sz c old (List.cons.inj hlog).2

theorem contentInv_reach {G : Sys → Label → Prop} {ram nfile : Int} {sockname : Bytes} {s : Sys}
    (h : Reach step G (init ram nfile sockname) s) : ContentInv s :=
  h.invariant ContentInv (contentInv_init ram nfile sockname)
    fun _ _ _ hi _ hs => contentInv_step hi hs

/-- What is sent or extended next is a node the worker holds on to. -/
theorem retained_of_touches {pc : Pc} {n : NodeId} (h : touches pc = some n) : n ∈ retained pc := by
  cases pc with
  | readLocked m =>
    obtain rfl := Option.some.inj h
    exact List.mem_singleton_self _
  | readNLoop ch k cur =>
    change (if 0 < k then cur else none) = some n at h
    show n ∈ (if 0 < k then cur.toList else [])
    by_cases hk : 0 < k
    · rw [if_pos hk] at h ⊢
      exact Option.mem_toList.mpr h
    · rw [if_neg hk] at h
      cases h
  | update m c rm cf p =>
    cases p with
    | commit =>
      obtain rfl := Option.some.inj h
      exact List.mem_cons_self ..
    | _ => cases h
  | _ => cases h

/-- **Appends are atomic and frames are snapshots** in every run whose removals
keep what the workers retain. -/
theorem appends_and_frames {ram nfile : Int} {sockname : Bytes} {s : Sys}
    (h : Reach step keepsRetained (init ram nfile sockname) s) : Snapshots s := by
  have hi := contentInv_reach h
  refine ⟨fun n f hf => ⟨hi.base.sized n f hf, hi.tracks n f hf⟩, fun rq n c hm => ?_,
    hi.ledger.once, fun rq p c a hm hop => ?_, hi.frames, fun fd pc n hpc hn => ?_⟩
  · have hop := hi.ledger.known rq n c hm
    cases hrq : rq.op <;> rw [hrq] at hop <;> cases hop
    exact ⟨_, rfl⟩
  · exact (hi.ledger.answered rq a hm).2.2 (by rw [hop]; simp [appendOp])
  · exact (ptrInv_reach h).stored fd pc n hpc (retained_of_touches hn)

/-- Client 4 appends twice to `/a` while client 5 creates `/b` and reads what there is:
the frame of `/a` has the first append, the file both. -/
theorem appends_and_frames_two :
    ∃ s f, Reach step keepsRetained (init 10 2 []) s ∧ s.shared.storage.file 0 = some f ∧
      f.contentFile = [120, 121] ∧ .frame ⟨3, 5, .readNFiles 1⟩ 0 [47, 97] 1 [120] ∈ s.log ∧
      Snapshots s := by
  obtain ⟨s, hr, hp⟩ := Reach.of_guarded_test step
    (fun s l => among [4, 5] s l && keepsPointersTest [4, 5] s l) (init 10 2 [])
    (List.flatten [[.accept 4, .accept 5, .request 4 (.openFile [47, 97] [49]),
        .request 5 (.openFile [47, 98] [49])], works 4 2, works 5 1, works 4 2, works 5 3,
        [.request 4 (.appendToFile [47, 97] [120]), .request 5 (.readNFiles 1)], works 5 2,
        works 4 9, works 5 2, [.request 4 (.openFile [47, 97] [48])], works 4 2, works 5 1,
        works 4 1, [.request 4 (.appendToFile [47, 97] [121])], works 4 6, works 5 1, works 4 3])
    (fun s => (s.shared.storage.file 0).map (·.contentFile) == some [120, 121] &&
      s.log.contains (.frame ⟨3, 5, .readNFiles 1⟩ 0 [47, 97] 1 [120])) (by decide +kernel)
  obtain ⟨hfile, hframe⟩ := Bool.and_eq_true_iff.mp hp
  obtain ⟨f, hf, hc⟩ := Option.map_eq_some_iff.mp (beq_iff_eq.mp hfile)
  have hreach : Reach step keepsRetained (init 10 2 []) s :=
    (reach_of_test (fun s l hs ht => keepsPointers_of_test hs ht) hr).mono fun _ _ hg => hg.1
  exact ⟨s, f, hreach, hf, hc, List.contains_iff_mem.mp hframe, appends_and_frames hreach⟩

/-- The cursor of a READ N stands on `/a` when client 4 evicts it: the next
frame is read from freed memory. -/
theorem frame_of_a_removed_file :
    ∃ s, Reach step anyStep (init 10 2 []) s ∧ ¬ Snapshots s := by
  obtain ⟨s, hr, hp⟩ := Reach.of_run_test step (init 10 2 [])
    (List.flatten [[.accept 4, .accept 5, .request 4 (.openFile [47, 97] [49])], works 4 4,
        [.request 4 (.appendToFile [47, 97] [120])], works 4 9,
        [.request 4 (.closeFile [47, 97])], works 4 3,
        [.request 4 (.openFile [47, 98] [49])], works 4 4,
        [.request 5 (.readNFiles 1)], works 5 3,
        [.request 4 (.openFile [47, 99] [49])], works 4 6])
    (fun s => s.pc 5 == some (.readNLoop 1 1 (some 0)) && !decide (s.shared.storage.Stored 0))
    (by decide +kernel)
  simp only [Bool.and_eq_true, beq_iff_eq, Bool.not_eq_true', decide_eq_false_iff_not] at hp
  exact ⟨s, hr, fun hs => hp.2 (hs.live 5 _ 0 hp.1 rfl)⟩

end FileStorage.System
