import FileStorage.Service.Runs
import FileStorage.Storage.Release
import FileStorage.System.Names

/-!
# What is left at the end

`main` prints the storage and frees it when every worker has left. Whatever the
workers did before, both walks come to an end, and it only depends on the links
whether they end well (`shutdown_iff`): a freed node that is still linked makes
both undefined, and a node that is stored but not linked is never freed. After
clean requests neither happens: the list of the files of the cache is printed,
newest first, and nothing is left (`clean_shutdown`).
-/

namespace FileStorage.Service

open FileStorage.Lib FileStorage.Storage FileStorage.Worker FileStorage.System

/-- In every run the links lead to older nodes. -/
theorem descending_reach {G : Sys → Label → Prop} {ram nfile : Int} {sockname : Bytes} {s : Sys}
    (h : Reach step G (init ram nfile sockname) s) : Descending s.shared.storage := by
  have hall : Base s ∧ Descending s.shared.storage := by
    refine h.invariant (fun s => Base s ∧ Descending s.shared.storage)
      ⟨base_init ram nfile sockname, descending_createStorage ram nfile⟩ ?_
    intro s l t hi hg hs
    exact ⟨base_step hi.1 hs, descending_step hi.1 hi.2 hs⟩
  exact hall.2

/-- **Exactly when the shutdown is in order**, after any interleaving of the
workers: each walk is defined if and only if it meets stored nodes only, and
nothing leaks if and only if it meets them all. -/
theorem shutdown_iff {ram nfile : Int} {sockname : Bytes} {s : Sys}
    (h : Reach step anyStep (init ram nfile sockname) s) :
    (∀ lines, printStorage s.shared.storage = some lines ↔
      (∀ n ∈ s.shared.storage.nodes, s.shared.storage.Stored n) ∧
        lines = s.shared.storage.lines s.shared.storage.nodes) ∧
    (∀ st', freerStorage s.shared.storage = some st' ↔
      (∀ n ∈ s.shared.storage.nodes, s.shared.storage.Stored n) ∧
        st' = s.shared.storage.freeAll s.shared.storage.nodes) ∧
    ((∃ st', freerStorage s.shared.storage = some st' ∧ ∀ n, ¬ st'.Stored n) ↔
      ∀ n, n ∈ s.shared.storage.nodes ↔ s.shared.storage.Stored n) := by
  have hdesc := descending_reach h
  exact ⟨fun lines => printStorage_iff hdesc, fun st' => freerStorage_iff hdesc,
    released_iff hdesc⟩

/-- Of three files the middle one makes room: it is still linked, and the
shutdown uses it after it was freed. -/
theorem shutdown_iff_middle :
    ∃ s, Reach step anyStep (init 10 3 []) s ∧ (∃ n ∈ s.shared.storage.nodes,
      ¬ s.shared.storage.Stored n) ∧ printStorage s.shared.storage = none ∧
      freerStorage s.shared.storage = none := by
  obtain ⟨s, hr, hp⟩ := Reach.of_run_test step (init 10 3 [])
    (List.flatten [[.accept 4, .request 4 (.openFile [47, 97] [49])], works 4 4,
      [.request 4 (.openFile [47, 98] [49])], works 4 4,
      [.request 4 (.appendToFile [47, 98] [120])], works 4 9,
      [.request 4 (.closeFile [47, 98])], works 4 3,
      [.request 4 (.openFile [47, 99] [49])], works 4 4,
      [.request 4 (.openFile [47, 100] [49])], works 4 12])
    (fun s => s.shared.storage.nodes.any fun n => !decide (s.shared.storage.Stored n))
    (by decide +kernel)
  obtain ⟨n, hn, hfreed⟩ := List.any_eq_true.mp hp
  have hfreed : ¬ s.shared.storage.Stored n := by simpa using hfreed
  obtain ⟨hprint, hfree, -⟩ := shutdown_iff hr
  refine ⟨s, hr, ⟨n, hn, hfreed⟩, ?_, ?_⟩
  · refine Option.eq_none_iff_forall_ne_some.mpr fun lines h => ?_
    exact hfreed (((hprint lines).mp h).1 n hn)
  · refine Option.eq_none_iff_forall_ne_some.mpr fun st' h => ?_
    exact hfreed (((hfree st').mp h).1 n hn)

/-! ## After clean requests -/

/-- The lines are those of the files. -/
theorem lines_of_shows {st : InfoStorage} {ent : NodeId → Entry} {l : List Entry}
    (h : Shows st.nodes st.file ent l) :
    st.lines st.nodes = l.map fun e => (e.pathname, e.size) := by
  have hline : ∀ n ∈ st.nodes, (st.file n).map File.line =
      some ((ent n).pathname, (ent n).size) := by
    intro n hn
    rw [h.file n hn]
    rfl
  unfold InfoStorage.lines
  rw [List.filterMap_congr hline, ← h.entries, List.map_map]
  exact congrFun List.filterMap_eq_map' st.nodes

/-- **After clean requests the shutdown prints the cache and frees everything.** -/
theorem clean_shutdown {ram nfile : Int} {sockname : Bytes} {s : Sys} (hram : 0 ≤ ram)
    (hnfile : 1 ≤ nfile) (h : Reach step cleanly (init ram nfile sockname) s) (hidle : idle s) :
    ∃ m : State ⟨ram, nfile, sockname⟩,
      replay serviceStep (.empty _ hram (Int.le_trans (Int.zero_le_ofNat 1) hnfile)) s.log =
        some m ∧
      printStorage s.shared.storage = some (m.cache.entries.map fun e => (e.pathname, e.size)) ∧
      ∃ st', freerStorage s.shared.storage = some st' ∧ ∀ n, ¬ st'.Stored n := by
  have hdesc := descending_reach h
  obtain ⟨m, hm, hf⟩ := follows_reach hram hnfile h
  obtain ⟨-, hrep⟩ := hf.of_idle hidle
  obtain ⟨ent, hshows⟩ := hrep.shows
  have hlinked : ∀ n, n ∈ s.shared.storage.nodes ↔ s.shared.storage.Stored n := hrep.wf.rep.mem
  refine ⟨m, hm, ?_, (released_iff hdesc).mpr hlinked⟩
  refine (printStorage_iff hdesc).mpr ⟨fun n hn => (hlinked n).mp hn, ?_⟩
  exact (lines_of_shows hshows).symm

/-- One file was closed, and a second one is left open. -/
theorem clean_shutdown_two :
    ∃ s, Reach step cleanly (init 10 2 []) s ∧
      printStorage s.shared.storage = some [([47, 98], 0), ([47, 97], 1)] ∧
      ∃ st', freerStorage s.shared.storage = some st' ∧ ∀ n, ¬ st'.Stored n := by
  obtain ⟨s, hr, hp⟩ := Reach.of_guarded_test step (cleanClient 4) (init 10 2 [])
    (List.flatten [[.accept 4, .request 4 (.openFile [47, 97] [49])], works 4 4,
      [.request 4 (.appendToFile [47, 97] [120])], works 4 9,
      [.request 4 (.closeFile [47, 97])], works 4 3,
      [.request 4 (.openFile [47, 98] [49])], works 4 4])
    (fun s => (s.job 4).isNone &&
      printStorage s.shared.storage == some [([47, 98], 0), ([47, 97], 1)]) (by decide +kernel)
  obtain ⟨hnone, hlines⟩ := Bool.and_eq_true_iff.mp hp
  obtain ⟨hclean, hidle⟩ := cleanly_of_cleanClient hr
  obtain ⟨m, -, -, hfree⟩ := clean_shutdown (by decide) (by decide) hclean (hidle hnone)
  exact ⟨s, hclean, beq_iff_eq.mp hlines, hfree⟩

end FileStorage.Service
