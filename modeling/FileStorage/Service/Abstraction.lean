import FileStorage.Service.Cache
import FileStorage.Worker.Lookup
import FileStorage.Worker.Room
import FileStorage.Worker.Insertion
import FileStorage.Worker.ReadN

/-!
# The cache that a storage represents

`Represents` relates the memory of the server to the files of the service: the
nodes, from `head` to `last`, hold the files, newest first. `ent` names the file
behind each node (`Shows`), so a list of nodes is read as a list of files, and
what the theorems of `Worker` say of nodes is said of files:

* the file that a lookup finds is the one under the name (`search_shows`);
* the nodes that may be evicted are the files that may be (`removables_eq`);
* the counters are what the files leave of the limits (`ramDispo_eq`,
  `nfileDispo_eq`).

Removals, insertions and writes of nodes are those of files (`Shows.without`,
`Shows.cons`, `Shows.edit`).
-/

namespace FileStorage.Service

open FileStorage.Lib FileStorage.Storage FileStorage.Worker FileStorage.Worker.Sequential
open FileStorage.Worker.Alone FileStorage.Worker.Lookup FileStorage.Worker.ReadN

/-- How a node holds a file. -/
def Entry.file (e : Entry) : File where
  fileSz := e.size
  pathname := e.pathname
  fdClientId :=
    match e.owner with
    | none => -1
    | some fd => fd
  modified := if e.written then 1 else -1
  contentFile := e.content

/-- Behind the nodes are the files `l`. -/
structure Shows (nodes : List NodeId) (file : NodeId → Option File) (ent : NodeId → Entry)
    (l : List Entry) : Prop where
  entries : nodes.map ent = l
  file : ∀ n ∈ nodes, file n = some (ent n).file

/-- The memory of the server represents the files. -/
structure Represents (sh : Shared) (lim : Limits) (l : List Entry) : Prop where
  wf : WellFormed sh.storage
  ram : sh.storage.ramTot = lim.ram
  slots : sh.storage.nfileTot = lim.slots
  sockname : sh.sockname = lim.sockname
  shows : ∃ ent, Shows sh.storage.nodes sh.storage.file ent l

section

variable {nodes V : List NodeId} {file file' : NodeId → Option File} {ent : NodeId → Entry}
variable {l : List Entry} {n : NodeId} {e : Entry} {g : Entry → Entry}

/-! ## Changes -/

/-- Writes behind other nodes do not show. -/
theorem Shows.congr (h : Shows nodes file ent l) (hf : ∀ n ∈ nodes, file' n = file n) :
    Shows nodes file' ent l :=
  ⟨h.entries, fun n hn => (hf n hn).trans (h.file n hn)⟩

/-- Taking nodes out takes their files out. -/
theorem Shows.without (h : Shows nodes file ent l) (hnames : (l.map Entry.pathname).Nodup)
    (hV : ∀ m ∈ V, m ∈ nodes) :
    Shows (nodes.filter (· ∉ V)) file ent
      (without Entry.pathname (V.map fun m => (ent m).pathname) l) where
  entries := by
    rw [← h.entries] at hnames ⊢
    exact (without_map hnames hV).symm
  file := fun n hn => h.file n (List.mem_filter.mp hn).1

/-- A node in front is a file in front. -/
theorem Shows.cons (h : Shows nodes file ent l) (hn : n ∉ nodes) (hf : file n = some e.file) :
    Shows (n :: nodes) file (Function.update ent n e) (e :: l) where
  entries := by
    rw [List.map_cons, Function.update_self, ← h.entries]
    refine congrArg (e :: ·) (List.map_congr_left fun m hm => ?_)
    exact Function.update_of_ne (fun he : m = n => hn (he ▸ hm)) _ _
  file := by
    intro m hm
    by_cases he : m = n
    · rw [he, Function.update_self]
      exact hf
    · rw [Function.update_of_ne he]
      exact h.file m ((List.mem_cons.mp hm).resolve_left he)

/-- Rewriting what is behind some nodes rewrites their files. -/
theorem Shows.edit (h : Shows nodes file ent l) (hnames : (l.map Entry.pathname).Nodup)
    (hV : ∀ m ∈ V, m ∈ nodes)
    (hf : ∀ m ∈ nodes, file' m = if m ∈ V then some (g (ent m)).file else file m) :
    Shows nodes file' (fun m => if m ∈ V then g (ent m) else ent m)
      (edit Entry.pathname (V.map fun m => (ent m).pathname) g l) where
  entries := by
    rw [← h.entries] at hnames ⊢
    exact (edit_map hnames hV).symm
  file := by
    intro m hm
    rw [hf m hm]
    by_cases hmem : m ∈ V
    · rw [if_pos hmem, if_pos hmem]
    · rw [if_neg hmem, if_neg hmem]
      exact h.file m hm

end

/-! ## What the nodes say of the files -/

section

variable {st : InfoStorage} {ent : NodeId → Entry} {l : List Entry} {n : NodeId} {p : Bytes}
variable {V : List NodeId}

/-- A descriptor in the node is the owner of the file. -/
theorem Entry.owned_iff (e : Entry) (fd : Nat) : e.file.fdClientId = fd ↔ e.owner = some fd := by
  unfold Entry.file
  cases e.owner with
  | none => simp
  | some a => simp

/-- No owner is written -1 there. -/
theorem Entry.closed_iff (e : Entry) : e.file.fdClientId = -1 ↔ e.owner = none := by
  unfold Entry.file
  cases e.owner with
  | none => simp
  | some a => simp

theorem Entry.written_iff (e : Entry) : e.file.modified = -1 ↔ e.written = false := by
  unfold Entry.file
  cases e.written <;> simp

/-- A node may be evicted if it holds a file that may go. -/
theorem Entry.evictable_eq (e : Entry) : evictable e.file = e.removable := by
  unfold evictable Entry.removable Entry.file
  cases e.owner with
  | none => cases e.written <;> rfl
  | some a =>
    have hne : ¬ (a : Int) = -1 := by omega
    simp [hne]

theorem evictableAt_eq (h : Shows st.nodes st.file ent l) (hn : n ∈ st.nodes) :
    st.evictableAt n = (ent n).removable := by
  unfold InfoStorage.evictableAt
  rw [h.file n hn]
  exact (ent n).evictable_eq

/-- READ N sends the files that were written. -/
theorem written_iff (h : Shows st.nodes st.file ent l) (hn : n ∈ st.nodes) :
    ReadN.written st n = (ent n).written := by
  rw [written_eq (h.file n hn)]
  unfold Entry.file
  cases (ent n).written <;> rfl

/-- What an eviction gains is the size of its files. -/
theorem gain_eq (h : Shows st.nodes st.file ent l) (hV : ∀ m ∈ V, m ∈ st.nodes) :
    gain st V = bytesOf (V.map ent) := by
  unfold gain bytesOf
  rw [List.map_map]
  refine congrArg List.sum (List.map_congr_left fun m hm => ?_)
  exact fileSz_eq (h.file m (hV m hm))

/-- The names in an answer are those of the files. -/
theorem paths_eq (h : Shows st.nodes st.file ent l) (hV : ∀ m ∈ V, m ∈ st.nodes) :
    paths st V = joined 44 (V.map fun m => (ent m).pathname) := by
  unfold paths
  refine congrArg (joined 44) (List.map_congr_left fun m hm => ?_)
  unfold Alone.pathname
  rw [h.file m (hV m hm)]
  rfl

/-- The files that may go, oldest first, are those behind the nodes of the scan. -/
theorem removables_eq (h : Shows st.nodes st.file ent l) :
    removables l = (evictables st).map ent := by
  unfold removables evictables oldestFirst
  rw [← h.entries, ← List.map_reverse, List.filter_map]
  refine congrArg (List.map ent) (List.filter_congr fun n hn => ?_)
  exact (evictableAt_eq h (List.mem_reverse.mp hn)).symm

/-- The free bytes are what the files leave of the limit. -/
theorem ramDispo_eq (h : Shows st.nodes st.file ent l) (hok : SeqOk st) :
    st.ramDispo = st.ramTot - bytesOf l := by
  have hbytes := hok.rep.bytes_eq hok.fresh hok.balanced
  have hgain : (st.nodes.map st.fileSz).sum = bytesOf l := by
    rw [← h.entries]
    exact gain_eq h fun m hm => hm
  omega

/-- So are the free slots. -/
theorem nfileDispo_eq (h : Shows st.nodes st.file ent l) (hok : SeqOk st) :
    st.nfileDispo = st.nfileTot - l.length := by
  have hlength := hok.rep.length_eq hok.fresh hok.balanced
  rw [← h.entries, List.length_map]
  omega

theorem mem_nodes (hok : SeqOk st) {f : File} (hf : st.file n = some f) : n ∈ st.nodes :=
  (hok.rep.mem n).mpr (stored_iff_files.mpr ⟨f, hf⟩)

/-- The nodes of a name are those of the files with the name. -/
theorem named_iff_pathname (h : Shows st.nodes st.file ent l) (hok : SeqOk st) :
    Named st p n ↔ n ∈ st.nodes ∧ (ent n).pathname = p := by
  constructor
  · intro hn
    have hmem := hn.mem hok
    obtain ⟨f, hf, hp⟩ := hn
    rw [h.file n hmem] at hf
    obtain rfl := Option.some.inj hf
    exact ⟨hmem, hp⟩
  · intro hn
    exact ⟨_, h.file n hn.1, hn.2⟩

/-- When no longer name is in the way, the search finds what the name stands
for. -/
theorem search_shows (h : Shows st.nodes st.file ent l) (hok : SeqOk st)
    (hnames : (l.map Entry.pathname).Nodup) (hu : Unshadowed st p) :
    (∃ n ∈ st.nodes, (ent n).pathname = p ∧ searchFileNode p st = some (some n) ∧
      lookup Entry.pathname p l = some (ent n)) ∨
    (searchFileNode p st = some none ∧ lookup Entry.pathname p l = none) := by
  rcases search_of_unshadowed hok hu with ⟨n, hn, hs⟩ | ⟨hnone, hs⟩
  · obtain ⟨hmem, hp⟩ := (named_iff_pathname h hok).mp hn
    refine .inl ⟨n, hmem, hp, hs, ?_⟩
    rw [← hp]
    refine lookup_of_mem hnames ?_
    rw [← h.entries]
    exact List.mem_map.mpr ⟨n, hmem, rfl⟩
  · refine .inr ⟨hs, lookup_eq_none.mpr fun e he hp => ?_⟩
    rw [← h.entries] at he
    obtain ⟨n, hn, rfl⟩ := List.mem_map.mp he
    exact hnone n ((named_iff_pathname h hok).mpr ⟨hn, hp⟩)

end

end FileStorage.Service
