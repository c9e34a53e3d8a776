import FileStorage.Worker.Cases

/-!
# The nodes a worker holds on to

`searchFileNode` drops the lock before it returns, the handlers poll a node and
walk from node to node in later sections, and the eviction loops keep a cursor
between them. `retained pc` are the nodes a worker holds a pointer to and may
still go through.

Two lemmas tie it to the step function. `wstep_defined` says that `retained`
misses nothing: a worker whose nodes are stored makes its next step, except
where `UpdateFile` reads the variable `current_file` before anything has set
it. `retained_step` says where the nodes come from: what a worker holds after a
step was stored before it, and is not the node that the step removed.
-/

namespace FileStorage.Worker

open FileStorage.Lib FileStorage.Storage

/-! ## What a worker holds on to -/

/-- The node under the cursor of the insertion. -/
def InsPc.cursor : InsPc → List NodeId
  | .inner _ cur => cur.toList
  | .evict _ c => [c]
  | _ => []

/-- The node under the cursor of the append. -/
def UpdPc.cursor : UpdPc → List NodeId
  | .inner _ cur => cur.toList
  | .evict _ m => [m]
  | _ => []

/-- The nodes that later steps may read or write through. -/
def retained : Pc → List NodeId
  | .openPoll n _ => [n]
  | .readPoll n _ => [n]
  | .readLocked n => [n]
  | .appPoll n _ _ => [n]
  | .appLocked n _ => [n]
  | .closePoll n _ => [n]
  | .readNLoop _ k cur => if 0 < k then cur.toList else []
  | .insert _ _ p => p.cursor
  | .update n _ _ cf p => n :: ((cf.getD none).toList ++ p.cursor)
  | _ => []

/-- `UpdateFile` is about to evict the file it appends to. -/
def evictsTarget : Pc → Bool
  | .update n _ _ _ (.evict _ m) => m == n
  | _ => false

/-- `UpdateFile` goes on with `current_file`, which nothing has set. -/
def scansUnset (st : InfoStorage) : Pc → Bool
  | .update _ _ _ none (.evict _ m) => !st.evictableAt m
  | _ => false

section

variable {rq : Request} {sh : Shared} {e : Effect} {pc q : Pc} {l : List NodeId} {n : NodeId}

/-- A worker whose nodes are stored makes its next step. -/
theorem wstep_defined (hrep : Rep sh.storage l) (hfresh : sh.storage.store.Fresh)
    (hb : sh.storage.store.Balanced) (hret : ∀ n ∈ retained pc, sh.storage.Stored n)
    (hset : scansUnset sh.storage pc = false) : ∃ e, wstep rq pc sh = some e := by
  have search := fun p => hrep.search hfresh hb p
  -- the node a handler polls
  have polled : ∀ {n : NodeId}, n ∈ retained pc → ∃ node, sh.storage.heap n = some node :=
    fun hn => heap_of_stored (hret _ hn)
  cases pc with
  | openSearch p fl =>
    simp only [wstep, search, goto]
    split
    · exact ⟨_, rfl⟩
    · split <;> exact ⟨_, rfl⟩
  | openPoll n c =>
    obtain ⟨node, hn⟩ := polled (List.mem_singleton_self n)
    by_cases ho : node.fdClientId = -1
    · simp [wstep, openSection, hn, ho]
    · simp only [wstep, openSection, hn, Option.bind_eq_bind, Option.bind_some, if_neg ho, goto]
      split <;> exact ⟨_, rfl⟩
  | insert x rm p =>
    refine insertStep_defined hrep fun cnt c hp => ?_
    subst hp
    exact hret c (List.mem_singleton_self c)
  | readSearch p =>
    simp only [wstep, search, goto]
    split <;> first | exact ⟨_, rfl⟩ | simp_all
  | readPoll n c =>
    obtain ⟨node, hn⟩ := polled (List.mem_singleton_self n)
    simp only [wstep, hn, goto]
    split <;> exact ⟨_, rfl⟩
  | readLocked n =>
    obtain ⟨node, hn⟩ := polled (List.mem_singleton_self n)
    simp only [wstep, hn, goto]
    split <;> exact ⟨_, rfl⟩
  | readNLoop ch k cur =>
    cases cur with
    | none => exact ⟨_, rfl⟩
    | some n =>
      by_cases hk : k > 0
      · obtain ⟨node, hn⟩ := polled (n := n) (by simp [retained, hk])
        by_cases hm : node.modified = -1
        · simp [wstep, hk, readNSection, hn, hm, goto]
        · simp [wstep, hk, readNSection, hn, hm]
      · simp only [wstep, if_neg hk, goto]
        exact ⟨_, rfl⟩
  | appSearch p c =>
    simp only [wstep, search, goto]
    split <;> first | exact ⟨_, rfl⟩ | simp_all
  | appPoll n k c =>
    obtain ⟨node, hn⟩ := polled (List.mem_singleton_self n)
    simp only [wstep, hn, goto]
    split <;> exact ⟨_, rfl⟩
  | appLocked n c =>
    obtain ⟨node, hn⟩ := polled (List.mem_singleton_self n)
    simp only [wstep, hn, goto]
    split <;> exact ⟨_, rfl⟩
  | update n c rm cf p =>
    refine updateStep_defined hrep (hret n (List.mem_cons_self ..)) fun cnt m hp => ?_
    subst hp
    refine ⟨hret m (by simp [retained, UpdPc.cursor]), fun he hcf => ?_⟩
    simp only [scansUnset, he, hcf] at hset
    cases hset
  | closeSearch p =>
    simp only [wstep, search, goto]
    split <;> first | exact ⟨_, rfl⟩ | simp_all
  | closePoll n c =>
    obtain ⟨node, hn⟩ := polled (List.mem_singleton_self n)
    by_cases ho : node.fdClientId = rq.fd
    · simp [wstep, closeSection, hn, ho]
    · simp only [wstep, closeSection, hn, Option.bind_eq_bind, Option.bind_some, if_neg ho, goto]
      split <;> exact ⟨_, rfl⟩
  | _ => exact ⟨_, rfl⟩

theorem retained_loop {ch k : Int} {cur : Ptr} (hn : n ∈ retained (.readNLoop ch k cur)) :
    cur = some n := by
  change n ∈ (if 0 < k then cur.toList else []) at hn
  by_cases hk : 0 < k
  · rw [if_pos hk] at hn
    exact Option.mem_toList.mp hn
  · rw [if_neg hk] at hn
    cases hn

/-- Most steps remove nothing and hold on to what they had. -/
theorem retained_same (hret : ∀ n ∈ retained pc, sh.storage.Stored n) (hn : n ∈ retained pc)
    (hr : removes sh.storage pc = none) :
    sh.storage.Stored n ∧ removes sh.storage pc ≠ some n :=
  ⟨hret n hn, by rw [hr]; simp⟩

/-- What the insertion holds on to is stored, and not what it removes. -/
theorem retained_insertStep {x : Node} {rm : Bytes} {p : InsPc}
    (h : insertStep rq x rm p sh = some e) (hrep : Rep sh.storage l)
    (hret : ∀ n ∈ retained (.insert x rm p), sh.storage.Stored n)
    (hend : ∀ n, removes sh.storage (.insert x rm p) = some n → sh.storage.inner n = false)
    (hq : e.pc = some q) (hn : n ∈ retained q) :
    sh.storage.Stored n ∧ removes sh.storage (.insert x rm p) ≠ some n := by
  cases insertStep_cases h with
  | go hg =>
    cases hq
    cases hg with
    | last =>
      exact ⟨(hrep.mem n).mp (hrep.linked.last_mem (Option.mem_toList.mp hn)), by simp [removes]⟩
    | next => exact retained_same hret hn rfl
    | @refused _ c kept =>
      have hc : sh.storage.Stored c := hret c (List.mem_singleton_self c)
      have hf : sh.storage.father c = some n := Option.mem_toList.mp hn
      exact ⟨(hrep.mem n).mp (hrep.linked.father_mem ((hrep.mem c).mpr hc) hf),
        by simp [removes, kept]⟩
    | _ => cases hn
  | @evict cnt c r hr =>
    cases hq
    have hc : sh.storage.Stored c := hret c (List.mem_singleton_self c)
    obtain ⟨f, hfile, he, -⟩ := store_removeFile hr
    have hrem : removes sh.storage (.insert x rm (.evict cnt c)) = some c :=
      if_pos (evictableAt_of_file hfile he)
    obtain ⟨hs, hne⟩ := hrep.evicted hc hr (hend c hrem) (Option.mem_toList.mp hn)
    exact ⟨hs, by rw [hrem]; exact fun e => hne (Option.some.inj e).symm⟩
  | fail =>
    cases hq
    cases hn
  | commit =>
    cases hq
    cases hn

/-- So is what the append holds on to. -/
theorem retained_updateStep {t : NodeId} {c rm : Bytes} {cf : Option Ptr} {p : UpdPc}
    (h : updateStep rq t c rm cf p sh = some e) (hrep : Rep sh.storage l)
    (hret : ∀ n ∈ retained (.update t c rm cf p), sh.storage.Stored n)
    (hend : ∀ n, removes sh.storage (.update t c rm cf p) = some n →
      sh.storage.inner n = false ∧ evictsTarget (.update t c rm cf p) = false)
    (hq : e.pc = some q) (hn : n ∈ retained q) :
    sh.storage.Stored n ∧ removes sh.storage (.update t c rm cf p) ≠ some n := by
  -- inside the eviction loop the target and `current_file` stay as they are
  have keep : ∀ {p p' : UpdPc}, (∀ m ∈ p'.cursor, m ∈ p.cursor) →
      n ∈ retained (.update t c rm cf p') → n ∈ retained (.update t c rm cf p) := by
    intro p p' hsub hn
    simp only [retained, List.mem_cons, List.mem_append] at hn ⊢
    exact hn.imp id (Or.imp id (hsub n))
  have keepAll : ∀ {p p' : UpdPc}, p'.cursor = [] →
      n ∈ retained (.update t c rm cf p') → n ∈ retained (.update t c rm cf p) :=
    fun hnil => keep (by rw [hnil]; simp)
  cases updateStep_cases h with
  | go hg =>
    cases hq
    cases hg with
    | last =>
      simp only [retained, List.mem_cons, List.mem_append] at hn
      rcases hn with rfl | hn | hn
      · exact retained_same hret (by simp [retained]) rfl
      · exact retained_same hret (by simp [retained, hn]) rfl
      · exact ⟨(hrep.mem n).mp (hrep.linked.last_mem (Option.mem_toList.mp hn)),
          by simp [removes]⟩
    | next => exact retained_same hret (keep (fun _ h => h) hn) rfl
    | refused kept hset =>
      refine retained_same hret ?_ (by simp [removes, kept])
      subst hset
      simp only [retained, List.mem_cons, List.mem_append, UpdPc.cursor] at hn ⊢
      rcases hn with rfl | hn | hn
      · exact .inl rfl
      · exact .inr (.inl hn)
      · exact .inr (.inl hn)
    | _ => exact retained_same hret (keepAll rfl hn) rfl
  | delete =>
    cases hq
    cases hn
  | @evict cnt m r hr =>
    cases hq
    have hm : sh.storage.Stored m := hret m (by simp [retained, UpdPc.cursor])
    obtain ⟨f, hfile, he, -⟩ := store_removeFile hr
    have hrem : removes sh.storage (.update t c rm cf (.evict cnt m)) = some m :=
      if_pos (evictableAt_of_file hfile he)
    obtain ⟨hinner, htarget⟩ := hend m hrem
    rw [hrem]
    have hcur : r.currentFile = some n → sh.storage.Stored n ∧ some m ≠ some n := by
      intro hc
      obtain ⟨hs, hne⟩ := hrep.evicted hm hr hinner hc
      exact ⟨hs, fun e => hne (Option.some.inj e).symm⟩
    simp only [retained, List.mem_cons, List.mem_append, UpdPc.cursor] at hn
    rcases hn with rfl | hn | hn
    · refine ⟨hret n (by simp [retained]), fun e => ?_⟩
      simp only [evictsTarget, Option.some.inj e, beq_self_eq_true] at htarget
      cases htarget
    · exact hcur (Option.mem_toList.mp hn)
    · exact hcur (Option.mem_toList.mp hn)
  | fail =>
    cases hq
    cases hn
  | deny =>
    cases hq
    cases hn
  | commit =>
    cases hq
    cases hn

/-- A move takes its cursor from a stored node. -/
theorem retained_goes (hg : Goes rq sh.storage pc q) (hrep : Rep sh.storage l)
    (hret : ∀ n ∈ retained pc, sh.storage.Stored n) (hn : n ∈ retained q) :
    sh.storage.Stored n ∧ removes sh.storage pc ≠ some n := by
  have found : ∀ {p : Bytes} {n m : NodeId}, searchFileNode p sh.storage = some (some n) →
      m ∈ [n] → sh.storage.Stored m := by
    intro p n m hs hm
    obtain ⟨f, hf, -⟩ := searchLoop_found hs
    rw [List.mem_singleton.mp hm]
    exact stored_iff_files.mpr ⟨f, hf⟩
  cases hg with
  -- what a search or the walk of READ N FILES has just reached
  | openOld hs => exact ⟨found hs hn, by simp [removes]⟩
  | readFound hs => exact ⟨found hs hn, by simp [removes]⟩
  | appFound hs => exact ⟨found hs hn, by simp [removes]⟩
  | closeFound hs => exact ⟨found hs hn, by simp [removes]⟩
  | nHead =>
    exact ⟨(hrep.mem n).mp (hrep.linked.head_mem (retained_loop hn)), by simp [removes]⟩
  | nSkip hnode =>
    exact ⟨(hrep.neighbours hnode).1 n (retained_loop hn), by simp [removes]⟩
  -- what the handler held already
  | openWait => exact retained_same hret hn rfl
  | readWait => exact retained_same hret hn rfl
  | readGo => exact retained_same hret hn rfl
  | appWait => exact retained_same hret hn rfl
  | appGo => exact retained_same hret hn rfl
  | appStart => exact retained_same hret hn rfl
  | closeWait => exact retained_same hret hn rfl
  | _ => cases hn

/-- What a worker holds after a step was stored, and the step has not removed
it. -/
theorem retained_step (h : wstep rq pc sh = some e) (hrep : Rep sh.storage l)
    (hret : ∀ n ∈ retained pc, sh.storage.Stored n)
    (hend : ∀ n, removes sh.storage pc = some n →
      sh.storage.inner n = false ∧ evictsTarget pc = false)
    (hq : e.pc = some q) (hn : n ∈ retained q) :
    sh.storage.Stored n ∧ removes sh.storage pc ≠ some n := by
  cases wstep_cases h with
  | go hg =>
    cases hq
    exact retained_goes hg hrep hret hn
  | insert he => exact retained_insertStep he hrep hret (fun n hr => (hend n hr).1) hq hn
  | update he => exact retained_updateStep he hrep hret hend hq hn
  | nSend _ hst =>
    cases hq
    have hnode := (store_readNSection hst).1
    exact ⟨(hrep.neighbours hnode).1 n (retained_loop hn), by simp [removes]⟩
  | openTake => cases hq; cases hn
  | closeTake => cases hq; cases hn
  | stats => cases hq; cases hn
  | readSend => cases hq
  | closeConn => cases hq
  | reply => cases hq

end

end FileStorage.Worker
