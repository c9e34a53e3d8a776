import FileStorage.Client.Saving
import FileStorage.Service.Contents

/-!
# Copying the files of the server into a directory

`readNFiles` with a directory, from the request to the directory: it comes to its end
as soon as the answer is there, and saves the files that the cache has served it. Of
files in different directories of the clients with one `basename` a single one stays;
everything is there exactly if those have the same content (`Backup.complete`).
-/

namespace FileStorage.Service

open FileStorage.Lib FileStorage.Wire
open FileStorage.Client (Folder basename filenameIn readNFilesInto readNFilesInto_eq saved)

/-- What the client's file system holds when the files `fs`, each a pathname with a size
and a content, were saved in `dir`. -/
structure Backup (dir : Bytes) (fs : List (Bytes × Nat × Bytes)) (folder folder' : Folder) :
    Prop where
  written : ∀ f ∈ fs, ∃ g ∈ fs, filenameIn dir (some g.1) = filenameIn dir (some f.1) ∧
    folder' (filenameIn dir (some f.1)) = some g.2.2
  kept : ∀ filename, (∀ f ∈ fs, filenameIn dir (some f.1) ≠ filename) →
    folder' filename = folder filename
  complete : (∀ f ∈ fs, folder' (filenameIn dir (some f.1)) = some f.2.2) ↔
    ∀ f ∈ fs, ∀ g ∈ fs, basename (some f.1) = basename (some g.1) → f.2.2 = g.2.2

theorem filenameIn_inj {dir : Bytes} {p q : Option Bytes} :
    filenameIn dir p = filenameIn dir q ↔ basename p = basename q := by
  constructor
  · intro h
    exact (List.cons.inj (List.append_cancel_left h)).2
  · intro h
    unfold filenameIn
    rw [h]

/-- The writes of the files that are sent. -/
theorem saved_received (dir : Bytes) (outs : List Output) (folder : Folder) :
    saved dir (outs.filterMap Output.received) folder =
      writes (fun f => filenameIn dir (some f.1)) (fun f => some f.2.2)
        ((outs.filterMap Output.received).filterMap fileOf) folder := by
  induction outs generalizing folder with
  | nil => rfl
  | cons o outs ih =>
    cases o with
    | file pathname size content =>
      exact ih (Function.update folder (filenameIn dir (some pathname)) (some content))
    | answer a => exact ih folder
    | bye a => exact ih folder

theorem backup_writes (dir : Bytes) (fs : List (Bytes × Nat × Bytes)) (folder : Folder) :
    Backup dir fs folder
      (writes (fun f => filenameIn dir (some f.1)) (fun f => some f.2.2) fs folder) where
  written f hf := writes_of_mem ⟨f, hf, rfl⟩
  kept filename hnone := writes_of_forall_ne hnone
  complete := by
    refine writes_all_iff.trans ?_
    simp only [filenameIn_inj, Option.some.injEq]

/-- **`readNFiles` saves the files that the cache has served it** at a point between its
request and its end, with what they were brought, and nothing else. -/
theorem readNFiles_backs_up {ram nfile : Int} {sockname : Bytes} {L : Nat} {s : Net}
    (hram : 0 ≤ ram) (hnfile : 1 ≤ nfile) (hfit : Fits ⟨ram, nfile, sockname⟩ L)
    (h : Reach netStep (orderly L) (.init ram nfile sockname) s) (k n : Nat) (sched : List Read)
    (hcalling : (s.client k).calling = some (.readNFiles n)) (hready : (s.client k).ready = true)
    (hn : (s.client k).answer.length ≤ dataReads sched) (dir : Bytes) (opens : Bytes → Bool)
    (hopens : ∀ filename, opens filename = true) (folder : Folder) :
    ∃ ret files folder' rest mid before m,
      readNFilesInto (some dir) true opens ((s.client k).answer.length + 1)
        ⟨sched, (s.client k).answer⟩ folder = .ok ((ret, folder'), rest) ∧
      s.log = mid ++ .taken k :: before ∧ (∀ c, .called k c ∉ mid) ∧
      ServedAt (.empty ⟨ram, nfile, sockname⟩ hram (Int.le_trans (Int.zero_le_ofNat 1) hnfile))
        before m k (.readNFiles n) (.files ret files) ∧
      Backup dir (files.filterMap fileOf) folder folder' := by
  obtain ⟨m, hm, due, hin⟩ := replay_of_reach hram hnfile hfit h
  obtain ⟨c, outs, reply, hcl, hp, -, -, -⟩ := (hin.talks k).of_ready hready
  obtain ⟨c', r, sched', hc', hp', hread⟩ := receive_ready hin hfit hready hn
  obtain rfl : c' = .readNFiles n := Option.some.inj (hc'.symm.trans hcalling)
  obtain rfl : c = .readNFiles n := by
    rw [hcl] at hcalling
    exact Option.some.inj hcalling
  obtain rfl : r = received (.readNFiles n) outs := Pending.due.inj (hp'.symm.trans hp)
  obtain ⟨⟨⟨ret, files⟩, rest⟩, hanswer, hfiles⟩ := bind_eq_ok hread
  have hreceived : .files ret files = received (.readNFiles n) outs :=
    (Prod.mk.inj (Except.ok.inj hfiles)).1
  obtain rfl : files = outs.filterMap Output.received := (Received.files.inj hreceived).2
  obtain ⟨mid, before, m', hlog, hmid, hserved⟩ :=
    ((accounts_of_replay _ _ hm).due k _ hp).of_lastCall (lastCall_of_calling h k _ hcalling)
  refine ⟨ret, outs.filterMap Output.received, saved dir (outs.filterMap Output.received) folder,
    rest, mid, before, m', ?_, hlog, hmid, hreceived ▸ hserved, ?_⟩
  · rw [readNFilesInto_eq hanswer, if_pos (List.all_eq_true.mpr fun f _ => hopens _)]
  · rw [saved_received]
    exact backup_writes dir _ folder

/-- The second client waits for one file, the answer is there, and its loop writes the
content `x` to `d/a`. -/
def readsOne (s : Net) : Bool :=
  (s.client 1).ready && decide ((s.client 1).calling = some (.readNFiles 1)) &&
    decide ((s.client 1).answer.length ≤ dataReads (choppy 60)) &&
    match readNFilesInto (some [100]) true (fun _ => true) ((s.client 1).answer.length + 1)
      ⟨choppy 60, (s.client 1).answer⟩ (fun _ => none) with
    | .ok ((_, folder'), _) => folder' [100, 47, 97] == some [120]
    | .error _ => false

/-- The second client saves in `d` what the first has written. -/
theorem readNFiles_backs_up_two :
    ∃ s, Reach netStep (orderly 8) (.init 10 1 []) s ∧
      ∃ ret files folder' rest mid before m,
        readNFilesInto (some [100]) true (fun _ => true) ((s.client 1).answer.length + 1)
          ⟨choppy 60, (s.client 1).answer⟩ (fun _ => none) = .ok ((ret, folder'), rest) ∧
        s.log = mid ++ .taken 1 :: before ∧ (∀ c, .called 1 c ∉ mid) ∧
        ServedAt (.empty ⟨10, 1, []⟩ (by decide) (by decide)) before m 1 (.readNFiles 1)
          (.files ret files) ∧
        Backup [100] (files.filterMap fileOf) (fun _ => none) folder' ∧
        folder' [100, 47, 97] = some [120] := by
  obtain ⟨s, hr, hp⟩ := Reach.of_guarded_test netStep (orderlyTest [4, 5] 8) (.init 10 1 [])
    ([.connect 4, .connect 5] ++ roundTrip 0 4 4 (.openFile [47, 97] .create) ++
      roundTrip 0 4 9 (.appendToFile [47, 97] [120]) ++ roundTrip 0 4 3 (.closeFile [47, 97]) ++
      [.call 1 (.readNFiles 1), .take 5 (choppy 40)] ++ List.replicate 5 (.work 5))
    readsOne (by decide +kernel)
  obtain ⟨htest, hsaved⟩ := Bool.and_eq_true_iff.mp hp
  obtain ⟨htest, hlen⟩ := Bool.and_eq_true_iff.mp htest
  obtain ⟨hready, hcalling⟩ := Bool.and_eq_true_iff.mp htest
  have hclean := orderly_of_test hr
  obtain ⟨ret, files, folder', rest, mid, before, m, hread, hlog, hmid, hserved, hbackup⟩ :=
    readNFiles_backs_up (by decide) (by decide) ⟨by decide, by decide⟩ hclean 1 1 (choppy 60)
      (of_decide_eq_true hcalling) hready (of_decide_eq_true hlen) [100] (fun _ => true)
      (fun _ => rfl) (fun _ => none)
  rw [hread] at hsaved
  exact ⟨s, hclean, ret, files, folder', rest, mid, before, m, hread, hlog, hmid, hserved,
    hbackup, beq_iff_eq.mp hsaved⟩

end FileStorage.Service
