import FileStorage.Service.Handlers

/-!
# READ N serves the cache

The loop of READ N makes one frame for each file it sends, and the same section
marks the file closed. So the memory is always that of the start, with the files
closed that have been sent so far (`Reading`), and what has been sent in the end
is known.
-/

namespace FileStorage.Service

open FileStorage.Lib FileStorage.Storage FileStorage.Worker FileStorage.Worker.Sequential
open FileStorage.Worker.Alone FileStorage.Worker.ReadN

/-- The nodes that were sent. -/
def sentNodes (log : List Event) : List NodeId :=
  log.filterMap fun
    | .frame _ n _ _ _ => some n
    | _ => none

/-- The worker is inside the handler of READ N. -/
def readingN : Pc → Bool
  | .readNStart _ => true
  | .readNHead _ => true
  | .readNLoop _ _ _ => true
  | .reply _ => true
  | _ => false

/-- The memory of the start, with the files closed that were sent. -/
structure Reading (sh : Shared) (s : Serving) : Prop where
  wf : WellFormed s.shared.storage
  links : SameLinks sh.storage s.shared.storage
  ramTot : s.shared.storage.ramTot = sh.storage.ramTot
  nfileTot : s.shared.storage.nfileTot = sh.storage.nfileTot
  sockname : s.shared.sockname = sh.sockname
  file : ∀ m, s.shared.storage.file m =
    if m ∈ sentNodes s.log then (sh.storage.file m).map ({ · with fdClientId := -1 })
    else sh.storage.file m
  pc : ∀ q, s.pc = some q → readingN q = true

section

variable {lim : Limits} {rq : Request} {sh : Shared} {l : List Entry} {s t : Serving}
variable {ent : NodeId → Entry} {n : Int}

theorem sentNodes_append (log : List Event) (ev : Event) :
    sentNodes (log ++ [ev]) = sentNodes log ++ sentNodes [ev] := List.filterMap_append ..

/-- A step that leaves the memory as it is, and sends no file. -/
theorem Reading.same (h : Reading sh s) {q : Option Pc} {log : List Event}
    (hpc : ∀ p, q = some p → readingN p = true) (hlog : sentNodes log = sentNodes s.log) :
    Reading sh ⟨q, s.shared, log⟩ :=
  ⟨h.wf, h.links, h.ramTot, h.nfileTot, h.sockname, hlog ▸ h.file, hpc⟩

/-- A step that sends a file closes it. -/
theorem Reading.send (h : Reading sh s) {m : NodeId} {node : Node} {st : InfoStorage} {q : Pc}
    (hsec : readNSection s.shared.storage m = some (node, st)) (hm : node.modified ≠ -1)
    (hq : readingN q = true) :
    Reading sh ⟨some q, s.shared.setStorage st,
      s.log ++ [.frame rq m node.pathname node.fileSz node.contentFile]⟩ := by
  obtain ⟨hnode, hst⟩ := store_readNSection hsec
  rw [if_neg hm] at hst
  have hfile := file_of_heap hnode
  have hlinks := sameLinks_readNSection hsec
  refine ⟨⟨setFd_seqOk h.wf.toSeqOk hlinks hfile hst, hst ▸ h.wf.sized.setFd⟩, ?_,
    (congrArg Store.ramTot hst).trans h.ramTot, (congrArg Store.nfileTot hst).trans h.nfileTot,
    h.sockname, fun a => ?_, ?_⟩
  · exact ⟨hlinks.son.trans h.links.son, hlinks.father.trans h.links.father,
      hlinks.head.trans h.links.head, hlinks.last.trans h.links.last,
      hlinks.brk.trans h.links.brk, fun a => (hlinks.stored a).trans (h.links.stored a)⟩
  · have hold := h.file a
    rw [sentNodes_append]
    show st.store.files a = if a ∈ sentNodes s.log ++ [m] then _ else _
    rw [hst]
    by_cases ha : a = m
    · subst ha
      have hold' : some node.toFile = _ := hfile.symm.trans hold
      rw [if_pos (by simp), Store.files_setFd_self hfile]
      by_cases hsent : a ∈ sentNodes s.log
      · rw [if_pos hsent] at hold'
        obtain ⟨f, hf, heq⟩ := Option.map_eq_some_iff.mp hold'.symm
        rw [hf, ← heq]
        rfl
      · rw [if_neg hsent] at hold'
        rw [← hold']
        rfl
    · rw [Store.files_setFd_ne ha]
      refine hold.trans ?_
      simp [ha]
  · intro p hp
    rw [← Option.some.inj hp]
    exact hq

theorem reading_step (h : Reading sh s) (hs : serveStep rq s = some t) : Reading sh t := by
  unfold serveStep at hs
  split at hs
  · cases hs
  · next pc hpc =>
    obtain ⟨e, hw, rfl⟩ := Option.map_eq_some_iff.mp hs
    have hin := h.pc pc hpc
    have hsame : sentNodes (s.log ++ []) = sentNodes s.log := by rw [List.append_nil]
    cases wstep_cases hw with
    | go hg =>
      cases hg with
      | nStart => exact h.same (by intro p hp; cases hp; rfl) hsame
      | nHead => exact h.same (by intro p hp; cases hp; rfl) hsame
      | nSkip => exact h.same (by intro p hp; cases hp; rfl) hsame
      | nEnd => exact h.same (by intro p hp; cases hp; rfl) hsame
      | _ => cases hin
    | nSend _ hsec hm => exact h.send hsec hm rfl
    | reply =>
      refine h.same (by intro p hp; cases hp) ?_
      show sentNodes (s.log ++ [.answered rq _]) = _
      rw [sentNodes_append]
      exact List.append_nil _
    | _ => cases hin

/-- The memory after a READ N that sent the files `V`. -/
theorem represents_reading {V : List NodeId} (h : Represents sh lim l) (hb : Bounded lim l)
    (hs : Shows sh.storage.nodes sh.storage.file ent l) (hr : Reading sh s)
    (hlog : sentNodes s.log = V) (hV : ∀ m ∈ V, m ∈ sh.storage.nodes) :
    Represents s.shared lim
      (edit Entry.pathname (V.map fun m => (ent m).pathname) Entry.close l) := by
  refine ⟨hr.wf, hr.ramTot.trans h.ram, hr.nfileTot.trans h.slots, hr.sockname.trans h.sockname,
    fun m => if m ∈ V then (ent m).close else ent m, ?_⟩
  rw [nodes_sameLinks hr.links]
  refine hs.edit hb.names hV fun m hm => ?_
  rw [hr.file m, hlog]
  by_cases hmem : m ∈ V
  · rw [if_pos hmem, if_pos hmem, hs.file m hm]
    rfl
  · rw [if_neg hmem, if_neg hmem]

/-! ## What is sent -/

/-- The frames of stored files. -/
theorem frames_eq {V : List NodeId} (hs : Shows sh.storage.nodes sh.storage.file ent l)
    (hV : ∀ m ∈ V, m ∈ sh.storage.nodes) :
    V.filterMap (frameOf rq sh.storage) =
      V.map fun m => .frame rq m (ent m).pathname (ent m).size (ent m).content := by
  rw [← List.filterMap_eq_map]
  refine List.filterMap_congr fun m hm => ?_
  exact frameOf_eq (hs.file m (hV m hm))

theorem sentNodes_readNEvents (hs : Shows sh.storage.nodes sh.storage.file ent l) (k : Nat) :
    sentNodes (readNEvents rq sh.storage k) = (writtenFiles sh.storage).take k := by
  have hV : ∀ m ∈ (writtenFiles sh.storage).take k, m ∈ sh.storage.nodes := fun m hm =>
    (List.mem_filter.mp (List.mem_of_mem_take hm)).1
  unfold readNEvents
  rw [sentNodes_append, frames_eq hs hV]
  unfold sentNodes
  rw [List.filterMap_map]
  exact (List.append_nil _).trans (List.filterMap_some ..)

theorem output_readNEvents (hs : Shows sh.storage.nodes sh.storage.file ent l) (k : Nat) :
    (readNEvents rq sh.storage k).filterMap output =
      (((writtenFiles sh.storage).take k).map ent).map Entry.output ++
        [.answer (if 0 < k then .ok else .ko)] := by
  have hV : ∀ m ∈ (writtenFiles sh.storage).take k, m ∈ sh.storage.nodes := fun m hm =>
    (List.mem_filter.mp (List.mem_of_mem_take hm)).1
  unfold readNEvents
  rw [List.filterMap_append, frames_eq hs hV, List.filterMap_map, List.map_map,
    ← List.filterMap_eq_map]
  rfl

/-- The handler sends as many written files as the count lets it; a negative one
lets it send none. -/
theorem readN_leads_count (h : WellMarked sh.storage) (hop : rq.op = .readNFiles n) :
    ∃ sh', Leads (serveStep rq) ⟨some (entry rq.op), sh, []⟩
      ⟨none, sh', readNEvents rq sh.storage
        (min (if n = 0 then sh.storage.nfileDispo else n).toNat
          (writtenFiles sh.storage).length)⟩ := by
  by_cases hn : 0 ≤ n
  · exact readN_leads rq h hop hn
  · refine ⟨sh, ?_⟩
    rw [if_neg (by omega), show min n.toNat (writtenFiles sh.storage).length = 0 by omega, hop]
    have hstart : wstep rq (.readNStart n) sh = some ⟨some (.readNHead n), sh, none⟩ := by
      show Worker.goto (.readNHead (if n = 0 then _ else n)) sh = _
      rw [if_neg (by omega)]
      rfl
    have hend := @readNEnd_leads rq sh [] n n sh.storage.head (.inr (by omega))
    unfold readNAnswer at hend
    rw [if_pos rfl] at hend
    exact .next (serveStep_of hstart) (.next (serveStep_of rfl) hend)

theorem wantedFiles_eq (hs : Shows sh.storage.nodes sh.storage.file ent l)
    (hclean : n = 0 → ((writtenFiles sh.storage).length : Int) ≤ sh.storage.nfileDispo) :
    wantedFiles n l = ((writtenFiles sh.storage).take
      (min (if n = 0 then sh.storage.nfileDispo else n).toNat
        (writtenFiles sh.storage).length)).map ent := by
  have hwritten : l.filter Entry.written = (writtenFiles sh.storage).map ent := by
    unfold writtenFiles
    rw [← hs.entries, List.filter_map]
    refine congrArg (List.map ent) (List.filter_congr fun m hm => ?_)
    exact (written_iff hs hm).symm
  have hlen : (writtenFiles sh.storage).length ≤ l.length := by
    rw [← hs.entries, List.length_map]
    exact List.length_filter_le ..
  unfold wantedFiles
  rw [hwritten, ← List.map_take]
  refine congrArg (List.map ent) ?_
  by_cases hzero : n = 0
  · have hfree := hclean hzero
    rw [if_pos hzero, if_pos hzero, List.take_of_length_le hlen, Nat.min_eq_right (by omega),
      List.take_length]
  · rw [if_neg hzero, if_neg hzero]
    exact List.take_eq_take_min

/-- READ N sends the files that are wanted, and closes them. -/
theorem serves_readNFiles (h : Represents sh lim l) (hb : Bounded lim l)
    (hop : rq.op = .readNFiles n)
    (hclean : n = 0 → ((writtenFiles sh.storage).length : Int) ≤ sh.storage.nfileDispo) :
    Serves lim rq (.readNStart n) sh (readNFiles n l).1 (readNFiles n l).2 := by
  obtain ⟨ent, hs⟩ := h.shows
  have hmarks : WellMarked sh.storage := by
    refine ⟨h.wf, fun m f hf => ?_⟩
    have hfile := hs.file m (mem_nodes h.wf.toSeqOk hf)
    obtain rfl := Option.some.inj (hfile.symm.trans hf)
    unfold Entry.file
    cases (ent m).written with
    | true => exact .inr rfl
    | false => exact .inl rfl
  obtain ⟨sh', hrun⟩ := readN_leads_count hmarks hop
  have hwanted := wantedFiles_eq hs hclean
  obtain ⟨k, hk⟩ : ∃ k, k = min (if n = 0 then sh.storage.nfileDispo else n).toNat
    (writtenFiles sh.storage).length := ⟨_, rfl⟩
  rw [← hk] at hrun hwanted
  have hstart : Reading sh ⟨some (entry rq.op), sh, []⟩ := by
    refine ⟨h.wf, .refl _, rfl, rfl, rfl, fun m => rfl, fun q hq => ?_⟩
    rw [← Option.some.inj hq, hop]
    rfl
  have hread := Leads.invariant (Reading sh) hstart (fun s t => reading_step) hrun
  have hlog : sentNodes (readNEvents rq sh.storage k) = (writtenFiles sh.storage).take k :=
    sentNodes_readNEvents hs k
  have hrep := represents_reading h hb hs hread hlog fun m hm =>
    (List.mem_filter.mp (List.mem_of_mem_take hm)).1
  obtain ⟨evs, hevs, hends⟩ := Ends.of_leads rfl hrun
  rw [List.nil_append] at hevs
  rw [← hevs, output_readNEvents hs, ← hwanted, hop] at hends
  have hanswer : (if 0 < k then Answer.ok else .ko) =
      if wantedFiles n l = [] then .ko else .ok := by
    have hlen : (wantedFiles n l).length = k := by
      rw [hwanted, List.length_map, List.length_take, hk]
      exact Nat.min_eq_left (Nat.min_le_right ..)
    by_cases hpos : 0 < k
    · rw [if_pos hpos, if_neg]
      intro hnil
      rw [hnil] at hlen
      exact absurd hlen (Nat.ne_of_lt hpos)
    · rw [if_neg hpos, if_pos]
      exact List.length_eq_zero_iff.mp (by omega)
  rw [hanswer] at hends
  refine ⟨sh', hends, ?_⟩
  unfold readNFiles namesOf
  dsimp only
  rw [hwanted, List.map_map]
  exact hrep

end

end FileStorage.Service
