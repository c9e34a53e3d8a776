import FileStorage.Worker.Alone

/-!
# READ N with nobody else around

`Serving` is a worker with the request it serves and the events it has made so
far, oldest first; `serveStep` is the worker's own step function. A request is
served when the worker has no program counter left.

For READ N the events are one frame for each file sent and one answer. What is
asked for are the first `wanted` of the written files, in the order of the list;
what the loop does is to send at most `nRead` of them (`readNLoop_leads`). For
N = 0, "all", the handler takes the number of *free* slots for `nRead`, so
`readN_iff` comes down to whether the written files are no more than that.
-/

namespace FileStorage.Worker.ReadN

open FileStorage.Lib FileStorage.Storage FileStorage.Worker FileStorage.Worker.Alone

/-- A worker at work, and its events. -/
structure Serving where
  pc : Option Pc
  shared : Shared
  log : List Event

def serveStep (rq : Request) (s : Serving) : Option Serving :=
  match s.pc with
  | none => none
  | some pc => (wstep rq pc s.shared).map fun e => ⟨e.pc, e.shared, s.log ++ e.event.toList⟩

/-- A well-formed storage with proper marks. -/
structure WellMarked (st : InfoStorage) : Prop extends WellFormed st where
  marks : Marked st.store

/-- The file stored here was written. -/
def written (st : InfoStorage) (n : NodeId) : Bool := (st.file n).any fun f => f.modified == 1

/-- The written files, from `head` to `last`. -/
def writtenFiles (st : InfoStorage) : List NodeId := st.nodes.filter (written st)

/-- The frame that sends a file. -/
def frameOf (rq : Request) (st : InfoStorage) (n : NodeId) : Option Event :=
  (st.file n).map fun f => .frame rq n f.pathname f.fileSz f.contentFile

/-- How many files READ N asks for. -/
def wanted (st : InfoStorage) (n : Int) : Nat :=
  if n = 0 then (writtenFiles st).length else min n.toNat (writtenFiles st).length

/-- The frames of the first `k` written files, and the answer. -/
def readNEvents (rq : Request) (st : InfoStorage) (k : Nat) : List Event :=
  ((writtenFiles st).take k).filterMap (frameOf rq st) ++
    [.answered rq (if 0 < k then .ok else .ko)]

/-- The handler comes to an end and has sent what was asked for. -/
def ReadsN (rq : Request) (sh : Shared) (n : Int) : Prop :=
  ∃ t, Leads (serveStep rq) ⟨some (entry rq.op), sh, []⟩ t ∧ t.pc = none ∧
    t.log = readNEvents rq sh.storage (wanted sh.storage n)

section

variable {rq : Request} {sh : Shared} {log : List Event}

theorem serveStep_of {pc : Pc} {e : Effect} (h : wstep rq pc sh = some e) :
    serveStep rq ⟨some pc, sh, log⟩ = some ⟨e.pc, e.shared, log ++ e.event.toList⟩ := by
  unfold serveStep
  simp only [h, Option.map_some]

/-- The answer ends the request. -/
theorem reply_leads (a : Answer) :
    Leads (serveStep rq) ⟨some (.reply a), sh, log⟩ ⟨none, sh, log ++ [.answered rq a]⟩ :=
  .next (serveStep_of rfl) (.refl _ _)

/-- The answer of the loop, from what is left of the count. -/
def readNAnswer (check nRead : Int) : Answer := if nRead = check then .ko else .ok

/-- The end of the loop. -/
theorem readNEnd_leads (check : Int) {nRead : Int} {cur : Ptr} (h : cur = none ∨ nRead ≤ 0) :
    Leads (serveStep rq) ⟨some (.readNLoop check nRead cur), sh, log⟩
      ⟨none, sh, log ++ [.answered rq (readNAnswer check nRead)]⟩ := by
  have hstep : wstep rq (.readNLoop check nRead cur) sh =
      some ⟨some (.reply (readNAnswer check nRead)), sh, none⟩ := by
    cases cur with
    | none => rfl
    | some n =>
      have hle := h.resolve_left (by simp)
      unfold wstep
      dsimp only
      rw [if_neg (Int.not_lt.mpr hle)]
      rfl
  refine .next (serveStep_of hstep) ?_
  rw [Option.toList_none, List.append_nil]
  exact reply_leads _

theorem written_eq {st : InfoStorage} {n : NodeId} {f : File} (h : st.file n = some f) :
    written st n = (f.modified == 1) := by
  unfold written
  rw [h]
  rfl

theorem frameOf_eq {st : InfoStorage} {n : NodeId} {f : File} (h : st.file n = some f) :
    frameOf rq st n = some (.frame rq n f.pathname f.fileSz f.contentFile) := by
  unfold frameOf
  rw [h]
  rfl

/-- What is sent of a list depends on its own files. -/
theorem sent_congr {st st' : InfoStorage} {l : List NodeId} (rq : Request)
    (h : ∀ m ∈ l, st'.file m = st.file m) (k : Nat) :
    l.filter (written st') = l.filter (written st) ∧
      ((l.filter (written st)).take k).filterMap (frameOf rq st') =
        ((l.filter (written st)).take k).filterMap (frameOf rq st) := by
  refine ⟨List.filter_congr fun m hm => ?_, List.filterMap_congr fun m hm => ?_⟩
  · unfold written
    rw [h m hm]
  · unfold frameOf
    rw [h m (List.mem_filter.mp (List.mem_of_mem_take hm)).1]

/-- Sending marks the file closed. -/
def sent (sh : Shared) (n : NodeId) : Shared :=
  sh.setStorage (sh.storage.modify n fun x => { x with fdClientId := -1 })

theorem sent_links (sh : Shared) (n : NodeId) : SameLinks sh.storage (sent sh n).storage :=
  sameLinks_modify (fun _ => rfl) (fun _ => rfl)

theorem sent_file {n m : NodeId} (h : m ≠ n) :
    (sent sh n).storage.file m = sh.storage.file m := by
  have hstore : (sent sh n).storage.store = sh.storage.store.setFd n (-1) := store_setFd
  show (sent sh n).storage.store.files m = _
  rw [hstore]
  exact Store.files_setFd_ne h

/-- A never written file is passed over. -/
theorem readNLoop_skip (check : Int) {nRead : Int} {n : NodeId} {node : Node}
    (hn : sh.storage.heap n = some node) (hpos : 0 < nRead) (hm : node.modified = -1) :
    wstep rq (.readNLoop check nRead (some n)) sh =
      some ⟨some (.readNLoop check nRead node.son), sh, none⟩ := by
  simp only [wstep, goto, readNSection, hn, Option.bind_eq_bind, Option.bind_some, if_pos hpos,
    if_pos hm]

/-- A written file is sent. -/
theorem readNLoop_send (check : Int) {nRead : Int} {n : NodeId} {node : Node}
    (hn : sh.storage.heap n = some node) (hpos : 0 < nRead) (hm : node.modified ≠ -1) :
    wstep rq (.readNLoop check nRead (some n)) sh =
      some ⟨some (.readNLoop check (nRead - 1) node.son), sent sh n,
        some (.frame rq n node.pathname node.fileSz node.contentFile)⟩ := by
  simp only [wstep, readNSection, hn, Option.bind_eq_bind, Option.bind_some, if_pos hpos,
    if_neg hm]
  rfl

end

/-- The loop sends the first `nRead` written files of the rest of the list. -/
theorem readNLoop_leads (rq : Request) (check : Int) {l : List NodeId} :
    ∀ (sh : Shared) (log : List Event) (nRead : Int) (q : Ptr),
      Chain sh.storage.son sh.storage.father q l none → l.Nodup →
      (∀ n ∈ l, ∃ f, sh.storage.file n = some f ∧ (f.modified = -1 ∨ f.modified = 1)) →
      0 ≤ nRead →
      ∃ sh', Leads (serveStep rq) ⟨some (.readNLoop check nRead l.head?), sh, log⟩
        ⟨none, sh', log ++ (((l.filter (written sh.storage)).take nRead.toNat).filterMap
            (frameOf rq sh.storage) ++
          [.answered rq (readNAnswer check
            (nRead - min nRead.toNat (l.filter (written sh.storage)).length))])⟩ := by
  induction l with
  | nil =>
    intro sh log nRead q _ _ _ _
    refine ⟨sh, ?_⟩
    simpa using readNEnd_leads check (.inl rfl)
  | cons a l ih =>
    intro sh log nRead q hc hnd hst hk
    rcases Int.le_iff_lt_or_eq.mp hk with hpos | hzero
    · obtain ⟨f, hf, hmark⟩ := hst a List.mem_cons_self
      obtain ⟨node, hn, rfl⟩ := heap_of_file hf
      obtain ⟨hnot, hnd⟩ := List.nodup_cons.mp hnd
      have hnext : node.son = l.head? := by
        rw [← son_of_heap hn, hc.2.1, Option.or_none]
      have hrest : ∀ n ∈ l, ∃ f, sh.storage.file n = some f ∧
          (f.modified = -1 ∨ f.modified = 1) := fun n hn => hst n (List.mem_cons_of_mem a hn)
      have hw := written_eq hf
      rcases hmark with hm | hm <;> rw [hm] at hw
      · -- the next file is looked at with the same count
        obtain ⟨sh', hleads⟩ := ih sh log nRead _ hc.2.2 hnd hrest hk
        refine ⟨sh', .next (serveStep_of (readNLoop_skip check hn hpos hm)) ?_⟩
        rw [hnext, List.filter_cons_of_neg (by rw [hw]; decide), Option.toList_none,
          List.append_nil]
        exact hleads
      · -- the file is sent and closed; the rest of the list is as it was
        have hsend : wstep rq (.readNLoop check nRead (some a)) sh = _ :=
          readNLoop_send check hn hpos (by omega)
        have hlinks := sent_links sh a
        have hfiles : ∀ m ∈ l, (sent sh a).storage.file m = sh.storage.file m :=
          fun m hm => sent_file fun he => hnot (he ▸ hm)
        have hchain : Chain (sent sh a).storage.son (sent sh a).storage.father (some a) l none :=
          hc.2.2.congr (fun b _ => congrFun hlinks.son b) (fun b _ => congrFun hlinks.father b)
        have hmarks : ∀ n ∈ l, ∃ f, (sent sh a).storage.file n = some f ∧
            (f.modified = -1 ∨ f.modified = 1) := by
          intro n hn
          rw [hfiles n hn]
          exact hrest n hn
        obtain ⟨sh', hleads⟩ := ih (sent sh a)
          (log ++ [.frame rq a node.pathname node.fileSz node.contentFile]) (nRead - 1) _ hchain
          hnd hmarks (by omega)
        refine ⟨sh', .next (serveStep_of hsend) ?_⟩
        obtain ⟨hfilter, hframes⟩ := sent_congr rq hfiles (nRead - 1).toNat
        have hcount : nRead.toNat = (nRead - 1).toNat + 1 := by omega
        have hleft : nRead - 1 - min (nRead - 1).toNat (l.filter (written sh.storage)).length =
            nRead - min nRead.toNat ((l.filter (written sh.storage)).length + 1) := by
          omega
        rw [hfilter, hframes, hleft, List.append_assoc] at hleads
        rw [hnext, List.filter_cons_of_pos (by rw [hw]; decide), hcount, List.take_succ_cons,
          List.filterMap_cons_some (frameOf_eq hf), List.length_cons, ← hcount]
        exact hleads
    · refine ⟨sh, ?_⟩
      rw [← hzero]
      simpa using readNEnd_leads check (.inr (Int.le_refl 0))

section

variable {rq : Request} {sh : Shared}

/-- The handler sends as many written files as the count lets it. -/
theorem readN_leads (rq : Request) {n : Int} (h : WellMarked sh.storage) (hop : rq.op = .readNFiles n)
    (hn : 0 ≤ n) :
    ∃ sh', Leads (serveStep rq) ⟨some (entry rq.op), sh, []⟩
      ⟨none, sh', readNEvents rq sh.storage
        (min (if n = 0 then sh.storage.nfileDispo else n).toNat
          (writtenFiles sh.storage).length)⟩ := by
  have hroom := h.room
  -- for N = 0 the count is that of the free slots
  obtain ⟨k, hk⟩ : ∃ k, (if n = 0 then sh.storage.nfileDispo else n) = k := ⟨_, rfl⟩
  have hpos : 0 ≤ k := by
    rw [← hk]
    split
    · exact hroom
    · exact hn
  have hstored : ∀ m ∈ sh.storage.nodes, ∃ f, sh.storage.file m = some f ∧
      (f.modified = -1 ∨ f.modified = 1) := by
    intro m hm
    obtain ⟨f, hf⟩ := stored_iff_files.mp ((h.rep.mem m).mp hm)
    exact ⟨f, hf, h.marks m f hf⟩
  obtain ⟨sh', hloop⟩ := readNLoop_leads rq k sh [] k _ h.rep.linked.chain h.rep.linked.nodup
    hstored hpos
  refine ⟨sh', ?_⟩
  rw [hk, hop]
  refine .next (serveStep_of rfl) (.next (serveStep_of rfl) ?_)
  show Leads (serveStep rq) ⟨some (.readNLoop (if n = 0 then sh.storage.nfileDispo else n)
    (if n = 0 then sh.storage.nfileDispo else n) sh.storage.head), sh, []⟩ _
  have htake : (writtenFiles sh.storage).take (min k.toNat (writtenFiles sh.storage).length) =
      (writtenFiles sh.storage).take k.toNat := List.take_eq_take_min.symm
  have hanswer : readNAnswer k (k - min k.toNat (writtenFiles sh.storage).length) =
      if 0 < min k.toNat (writtenFiles sh.storage).length then Answer.ok else .ko := by
    unfold readNAnswer
    by_cases hsent : 0 < min k.toNat (writtenFiles sh.storage).length
    · rw [if_neg (by omega), if_pos hsent]
    · rw [if_pos (by omega), if_neg hsent]
  unfold readNEvents
  rw [hk, h.rep.linked.head_eq, htake, ← hanswer]
  exact hloop

/-- One event for each file and one for the answer. -/
theorem length_readNEvents (h : WellMarked sh.storage) (k : Nat) :
    (readNEvents rq sh.storage k).length = min k (writtenFiles sh.storage).length + 1 := by
  have hall : ∀ m ∈ (writtenFiles sh.storage).take k, (frameOf rq sh.storage m).isSome = true := by
    intro m hm
    have hmem := (List.mem_filter.mp (List.mem_of_mem_take hm)).1
    obtain ⟨f, hf⟩ := stored_iff_files.mp ((h.rep.mem m).mp hmem)
    have hfile : sh.storage.file m = some f := hf
    unfold frameOf
    rw [hfile]
    rfl
  unfold readNEvents
  rw [List.length_append, List.filterMap_length_eq_length.mpr hall, List.length_take]
  rfl

end

/-- **READ N sends what was asked for if and only if** N is positive or the
written files are no more than the free slots. -/
theorem readN_iff {rq : Request} {sh : Shared} {n : Int} (h : WellMarked sh.storage)
    (hop : rq.op = .readNFiles n) (hn : 0 ≤ n) :
    ReadsN rq sh n ↔ (n = 0 → ((writtenFiles sh.storage).length : Int) ≤ sh.storage.nfileDispo) := by
  obtain ⟨sh', hleads⟩ := readN_leads rq h hop hn
  by_cases hzero : n = 0
  · subst hzero
    rw [if_pos rfl] at hleads
    constructor
    · -- a run has one end, so the two logs are equal and have the same length
      rintro ⟨t, ht, hend, hlog⟩ -
      have hnone : serveStep rq t = none := by
        unfold serveStep
        rw [hend]
      have heq := ht.unique hleads hnone rfl
      rw [heq] at hlog
      have hlen := congrArg List.length hlog
      rw [length_readNEvents h, length_readNEvents h] at hlen
      unfold wanted at hlen
      rw [if_pos rfl] at hlen
      have hroom := h.room
      omega
    · intro hle
      refine ⟨_, hleads, rfl, ?_⟩
      have hall : min sh.storage.nfileDispo.toNat (writtenFiles sh.storage).length =
          wanted sh.storage 0 := by
        have hle := hle rfl
        unfold wanted
        rw [if_pos rfl]
        omega
      rw [← hall]
  · refine ⟨fun _ he => absurd he hzero, fun _ => ⟨_, hleads, rfl, ?_⟩⟩
    unfold wanted
    rw [if_neg hzero, if_neg hzero]

/-- A storage with the one file 0 that was written. -/
theorem wellMarked_one {st : InfoStorage} (h : WellFormed st) (hnodes : st.nodes = [0])
    (hmark : (st.file 0).map (·.modified) = some 1) : WellMarked st := by
  refine ⟨h, fun n f hf => ?_⟩
  have hmem := (h.rep.mem n).mpr (stored_iff_files.mpr ⟨f, hf⟩)
  rw [hnodes, List.mem_singleton] at hmem
  subst hmem
  have hfile : st.file 0 = some f := hf
  rw [hfile] at hmark
  exact .inr (Option.some.inj hmark)

open FileStorage.Worker.Sequential in
/-- With one written file and another free slot, READ 0 sends the file. -/
theorem readN_iff_half_full :
    ∃ sh, WellMarked sh.storage ∧ (writtenFiles sh.storage).length = 1 ∧
      ReadsN ⟨0, 5, .readNFiles 0⟩ sh 0 := by
  obtain ⟨s, hr, hp⟩ := Reach.of_guarded_test step sound (init 10 2)
    [.call (.insertCreateFile [47, 97] 4), .work, .work,
      .call (.updateFile 0 4 [120]), .work, .work, .work, .work]
    (fun s => s.shared.storage.nodes == [0] &&
      ((s.shared.storage.file 0).map (·.modified) == some 1 &&
        ((writtenFiles s.shared.storage).length == 1 && s.shared.storage.nfileDispo == 1)))
    (by decide +kernel)
  simp only [Bool.and_eq_true, beq_iff_eq] at hp
  obtain ⟨hnodes, hmark, hone, hfree⟩ := hp
  have hwf := wellMarked_one (wellFormed_reach (by decide) hr) hnodes hmark
  refine ⟨s.shared, hwf, hone, (readN_iff hwf rfl (by decide)).mpr fun _ => ?_⟩
  rw [hone, hfree]
  decide

open FileStorage.Worker.Sequential in
/-- A full storage of one written file: READ 0 sends nothing. -/
theorem readN_full :
    ∃ sh, WellMarked sh.storage ∧ (writtenFiles sh.storage).length = 1 ∧
      ¬ ReadsN ⟨0, 5, .readNFiles 0⟩ sh 0 := by
  obtain ⟨s, hr, hp⟩ := Reach.of_guarded_test step sound (init 10 1)
    [.call (.insertCreateFile [47, 97] 4), .work, .work,
      .call (.updateFile 0 4 [120]), .work, .work, .work, .work]
    (fun s => s.shared.storage.nodes == [0] &&
      ((s.shared.storage.file 0).map (·.modified) == some 1 &&
        ((writtenFiles s.shared.storage).length == 1 && s.shared.storage.nfileDispo == 0)))
    (by decide +kernel)
  simp only [Bool.and_eq_true, beq_iff_eq] at hp
  obtain ⟨hnodes, hmark, hone, hfree⟩ := hp
  have hwf := wellMarked_one (wellFormed_reach (by decide) hr) hnodes hmark
  refine ⟨s.shared, hwf, hone, ?_⟩
  rintro ⟨t, ht, hend, hlog⟩
  obtain ⟨sh', hleads⟩ := readN_leads ⟨0, 5, .readNFiles 0⟩ hwf rfl (Int.le_refl 0)
  have hnone : serveStep ⟨0, 5, .readNFiles 0⟩ t = none := by
    unfold serveStep
    rw [hend]
  have heq := ht.unique hleads hnone rfl
  rw [heq] at hlog
  have hlen := congrArg List.length hlog
  rw [length_readNEvents hwf, length_readNEvents hwf] at hlen
  unfold wanted at hlen
  rw [if_pos rfl, if_pos rfl, hone, hfree] at hlen
  exact absurd hlen (by decide)

end FileStorage.Worker.ReadN
