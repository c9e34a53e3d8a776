import FileStorage.Client.Model
import Mathlib.Data.List.Nodup

/-!
# The files that `recDirectory` visits

`Listing.files` are the files below a directory in depth-first order, each with
the mark whether a directory on the way to it has a name that ends with a point.
`isdot` was meant for `.` and `..` and leaves out all of these (`Listing.entered`).

The countdown of the first `n` files is one number for all levels. `Counts` says
what a level does with it, and follows a file and an append (`counts_cons`,
`counts_append`), so a play of `recDirectory` is known from the listing alone
(`plays_recDirectory`), whatever the writes return.
-/

namespace FileStorage.Client

open FileStorage.Lib Dialogue

/-- A name that a file system gives. -/
structure Name (name : Bytes) : Prop where
  ne_nil : name ≠ []
  no_slash : slash ∉ name
  short : name.length ≤ 255

/-- The names of the files and the subdirectories. -/
def Listing.names : Listing → List Bytes
  | .nil => []
  | .file name rest => name :: rest.names
  | .dir name _ rest => name :: rest.names
  | .dots _ rest => rest.names

/-- A listing as `readdir` gives it. -/
def Listing.Valid : Listing → Prop
  | .nil => True
  | .file name rest => Name name ∧ name ∉ rest.names ∧ rest.Valid
  | .dir name sub rest =>
    Name name ∧ name ≠ [dot] ∧ name ≠ [dot, dot] ∧ name ∉ rest.names ∧ sub.Valid ∧ rest.Valid
  | .dots name rest => (name = [dot] ∨ name = [dot, dot]) ∧ rest.Valid

/-- A file below a directory, and whether one of the directories between them has
a name that ends with a point. -/
structure Found where
  path : Bytes
  hidden : Bool

/-- The files below `dirname`, depth first. -/
def Listing.files (dirname : Bytes) (hidden : Bool) : Listing → List Found
  | .nil => []
  | .file name rest => ⟨nextPath dirname name, hidden⟩ :: rest.files dirname hidden
  | .dir name sub rest =>
    sub.files (nextPath dirname name) (hidden || isdot (nextPath dirname name)) ++
      rest.files dirname hidden
  | .dots _ rest => rest.files dirname hidden

/-- The first `n` files, or all for `n = 0`. -/
def firstFiles (n : Nat) (files : List Found) : List Found := if n = 0 then files else files.take n

/-- The counters that `-w` starts with. -/
def startCount (n : Nat) : Count := ⟨n, if n > 0 then -1 else 0⟩

/-- `recDirectory` with the writes as its questions, answered by any value. -/
abbrev Walk : Type := Dialogue Bytes (fun _ => Int) Count

def walk (dirname : Bytes) (entries : Listing) (c : Count) : Walk :=
  recDirectory query dirname entries c

/-- `recDirectory` comes to an end, and has always visited the first `n` files,
no file twice. -/
structure VisitsFirst (dirname : Bytes) (entries : Listing) (n : Nat) : Prop where
  ends : ∃ x c, Plays (walk dirname entries (startCount n)) x c
  visited : ∀ x c, Plays (walk dirname entries (startCount n)) x c →
    x.map (·.1) = (firstFiles n (entries.files dirname false)).map (·.path)
  once : ∀ x c, Plays (walk dirname entries (startCount n)) x c → (x.map (·.1)).Nodup

/-! ## What is visited -/

/-- The files that `recDirectory` comes to without a countdown. -/
def Listing.entered (dirname : Bytes) : Listing → List Bytes
  | .nil => []
  | .file name rest => nextPath dirname name :: rest.entered dirname
  | .dir name sub rest =>
    (if isdot (nextPath dirname name) then [] else sub.entered (nextPath dirname name)) ++
      rest.entered dirname
  | .dots _ rest => rest.entered dirname

/-- What a countdown leaves of a list of files. -/
def visits (c : Count) (files : List Bytes) : List Bytes :=
  if c.totfile < 0 then files.take c.nfiles.toNat else files

/-- The countdown behind `k` files. -/
def after (c : Count) (k : Nat) : Count :=
  if c.totfile < 0 then ⟨c.nfiles - min c.nfiles.toNat k, c.totfile⟩ else c

/-- The exchanges visit what the countdown lets through, and leave the countdown
behind them. -/
def Counts (c : Count) (files : List Bytes) (x : List (Exchange Bytes fun _ => Int))
    (c' : Count) : Prop :=
  x.map (·.1) = visits c files ∧ c' = after c files.length

section

variable {c c' : Count} {fs gs : List Bytes} {x : List (Exchange Bytes fun _ => Int)}

theorem spent_iff : c.spent = true ↔ c.nfiles < 1 ∧ c.totfile < 0 := by
  unfold Count.spent
  rw [Bool.and_eq_true, decide_eq_true_eq, decide_eq_true_eq]

theorem counts_nil : Counts c [] x c' ↔ x = [] ∧ c' = c := by
  unfold Counts visits after
  simp

/-- A countdown that is spent lets nothing through. -/
theorem counts_spent (h : c.spent = true) : Counts c fs x c' ↔ x = [] ∧ c' = c := by
  obtain ⟨hn, ht⟩ := spent_iff.mp h
  have hzero : c.nfiles.toNat = 0 := by omega
  unfold Counts visits after
  rw [if_pos ht, if_pos ht, hzero]
  simp

/-- One that is not lets the next file through. -/
theorem counts_cons (h : ¬ c.spent = true) {p : Bytes} :
    Counts c (p :: fs) x c' ↔ ∃ r y, x = ⟨p, r⟩ :: y ∧ Counts c.next fs y c' := by
  have hnext : visits c (p :: fs) = p :: visits c.next fs ∧
      after c (p :: fs).length = after c.next fs.length := by
    rw [spent_iff] at h
    unfold visits after Count.next
    by_cases ht : c.totfile < 0
    · obtain ⟨k, hk⟩ : ∃ k, c.nfiles.toNat = k + 1 := ⟨c.nfiles.toNat - 1, by omega⟩
      have hnext : (c.nfiles - 1).toNat = k := by omega
      simp only [if_pos ht, hk, hnext, List.take_succ_cons, List.length_cons]
      refine ⟨trivial, ?_⟩
      congr 1
      omega
    · simp only [if_neg ht]
      exact ⟨trivial, trivial⟩
  unfold Counts
  rw [hnext.1, hnext.2]
  constructor
  · rintro ⟨hmap, hc⟩
    obtain ⟨⟨q, r⟩, y, rfl, rfl, hy⟩ := List.map_eq_cons_iff.mp hmap
    exact ⟨r, y, rfl, hy, hc⟩
  · rintro ⟨r, y, rfl, hy, hc⟩
    exact ⟨by rw [List.map_cons, hy], hc⟩

/-- The countdown goes on behind the first files. -/
theorem counts_append :
    Counts c (fs ++ gs) x c' ↔ ∃ y z c₁, x = y ++ z ∧ Counts c fs y c₁ ∧ Counts c₁ gs z c' := by
  have hsplit : visits c (fs ++ gs) = visits c fs ++ visits (after c fs.length) gs ∧
      after c (fs ++ gs).length = after (after c fs.length) gs.length := by
    unfold visits after
    by_cases ht : c.totfile < 0
    · have hleft : (c.nfiles - (min c.nfiles.toNat fs.length : Nat)).toNat =
          c.nfiles.toNat - fs.length := by omega
      simp only [if_pos ht, List.take_append, List.length_append, hleft]
      refine ⟨trivial, ?_⟩
      congr 1
      omega
    · simp only [if_neg ht]
      exact ⟨trivial, trivial⟩
  unfold Counts
  rw [hsplit.1, hsplit.2]
  constructor
  · rintro ⟨hmap, hc⟩
    obtain ⟨y, z, rfl, hy, hz⟩ := List.map_eq_append_iff.mp hmap
    exact ⟨y, z, _, rfl, ⟨hy, rfl⟩, hz, hc⟩
  · rintro ⟨y, z, c₁, rfl, ⟨hy, rfl⟩, hz, hc⟩
    exact ⟨by rw [List.map_append, hy, hz], hc⟩

end

theorem isdot_dots {dirname name : Bytes} (h : name = [dot] ∨ name = [dot, dot]) :
    isdot (nextPath dirname name) = true := by
  unfold isdot nextPath
  rcases h with rfl | rfl <;> simp [BUFSIZE]

/-- A play of `recDirectory`: the files visited, and the countdown afterwards. -/
theorem plays_recDirectory {entries : Listing} (hv : entries.Valid) {dirname : Bytes} {c c' : Count}
    {x : List (Exchange Bytes fun _ => Int)} :
    Plays (walk dirname entries c) x c' ↔ Counts c (entries.entered dirname) x c' := by
  have hstop : ∀ {fs : List Bytes} {c c' : Count} {x : List (Exchange Bytes fun _ => Int)},
      c.spent = true → (Plays (pure c : Walk) x c' ↔ Counts c fs x c') :=
    fun hspent => plays_pure.trans (counts_spent hspent).symm
  induction entries generalizing dirname c c' x with
  | nil => exact plays_pure.trans counts_nil.symm
  | file name rest ih =>
    show Plays (if c.spent then pure c else query (nextPath dirname name) >>= fun _ =>
      walk dirname rest c.next : Walk) x c' ↔ _
    by_cases hspent : c.spent = true
    · rw [if_pos hspent]
      exact hstop hspent
    · unfold Listing.entered
      rw [if_neg hspent, plays_query, counts_cons hspent]
      simp only [ih hv.2.2]
  | dir name sub rest ihsub ih =>
    show Plays (if c.spent then pure c else if isdot (nextPath dirname name) then
      walk dirname rest c else walk (nextPath dirname name) sub c >>= fun c =>
      walk dirname rest c : Walk) x c' ↔ _
    by_cases hspent : c.spent = true
    · rw [if_pos hspent]
      exact hstop hspent
    · unfold Listing.entered
      rw [if_neg hspent]
      by_cases hdot : isdot (nextPath dirname name) = true
      · rw [if_pos hdot, if_pos hdot, List.nil_append]
        exact ih hv.2.2.2.2.2
      · rw [if_neg hdot, if_neg hdot, plays_bind, counts_append]
        simp only [ihsub hv.2.2.2.2.1, ih hv.2.2.2.2.2]
  | dots name rest ih =>
    show Plays (if c.spent then pure c else if isdot (nextPath dirname name) then
      walk dirname rest c else .exit : Walk) x c' ↔ _
    by_cases hspent : c.spent = true
    · rw [if_pos hspent]
      exact hstop hspent
    · rw [if_neg hspent, if_pos (isdot_dots hv.1)]
      exact ih hv.2

/-- With the counters of `-w`. -/
theorem plays_walk {entries : Listing} (hv : entries.Valid) {dirname : Bytes} {n : Nat}
    {x : List (Exchange Bytes fun _ => Int)} :
    (∃ c, Plays (walk dirname entries (startCount n)) x c) ↔
      x.map (·.1) =
        if n = 0 then entries.entered dirname else (entries.entered dirname).take n := by
  have hvisits : visits (startCount n) (entries.entered dirname) =
      if n = 0 then entries.entered dirname else (entries.entered dirname).take n := by
    unfold visits startCount
    by_cases hn : n = 0
    · rw [if_pos hn, if_neg (by simp [hn])]
    · have hpos : 0 < n := by omega
      rw [if_neg hn, if_pos (by simp [hpos]), Int.toNat_natCast]
  rw [← hvisits]
  constructor
  · rintro ⟨c, h⟩
    exact ((plays_recDirectory hv).mp h).1
  · intro h
    exact ⟨_, (plays_recDirectory hv).mpr ⟨h, rfl⟩⟩

/-! ## The files and their paths -/

/-- What is not hidden is visited, in the same order. -/
theorem files_entered (entries : Listing) (dirname : Bytes) (hidden : Bool) :
    ((entries.files dirname hidden).filter fun f => !f.hidden).map (·.path) =
      if hidden then [] else entries.entered dirname := by
  induction entries generalizing dirname hidden with
  | nil =>
    cases hidden <;> rfl
  | file name rest ih =>
    have hrest := ih dirname hidden
    cases hidden with
    | true => simpa [Listing.files] using hrest
    | false => simpa [Listing.files, Listing.entered] using hrest
  | dir name sub rest ihsub ih =>
    have hsub := ihsub (nextPath dirname name) (hidden || isdot (nextPath dirname name))
    have hrest := ih dirname hidden
    unfold Listing.files Listing.entered
    rw [List.filter_append, List.map_append, hsub, hrest]
    cases hidden <;> simp
  | dots name rest ih => exact ih dirname hidden

/-- The name of the entry of `dirname` through which a path goes. -/
def entryName (dirname path : Bytes) : Bytes :=
  (path.drop (dirname.length + 1)).takeWhile (· != slash)

theorem takeWhile_slash {name tail : Bytes} (h : slash ∉ name)
    (htail : tail = [] ∨ tail.head? = some slash) :
    (name ++ tail).takeWhile (· != slash) = name := by
  have hne : ∀ c ∈ name, (c != slash) = true := fun c hc => bne_iff_ne.mpr fun heq => h (heq ▸ hc)
  rw [List.takeWhile_append_of_pos hne]
  rcases htail with rfl | htail
  · rw [List.takeWhile_nil, List.append_nil]
  · obtain ⟨tail, rfl⟩ := List.head?_eq_some_iff.mp htail
    simp

theorem entryName_nextPath {dirname name tail : Bytes} (h : Name name)
    (htail : tail = [] ∨ tail.head? = some slash) :
    entryName dirname (nextPath dirname name ++ tail) = name := by
  have htake : name.take BUFSIZE = name :=
    List.take_of_length_le (Nat.le_succ_of_le h.short)
  have hdrop : (dirname ++ slash :: (name ++ tail)).drop (dirname.length + 1) = name ++ tail := by
    simp
  unfold entryName nextPath
  rw [htake, List.append_assoc, List.cons_append, hdrop]
  exact takeWhile_slash h.no_slash htail

theorem files_slash {entries : Listing} {dirname : Bytes} {hidden : Bool} {f : Found}
    (hf : f ∈ entries.files dirname hidden) :
    ∃ tail, f.path = dirname ++ tail ∧ tail.head? = some slash := by
  induction entries generalizing dirname hidden with
  | nil => cases hf
  | file name rest ih =>
    rcases List.mem_cons.mp hf with rfl | hf
    · exact ⟨_, rfl, rfl⟩
    · exact ih hf
  | dir name sub rest ihsub ih =>
    rcases List.mem_append.mp hf with hf | hf
    · obtain ⟨tail, hpath, -⟩ := ihsub hf
      exact ⟨slash :: name.take BUFSIZE ++ tail, by
        rw [hpath, nextPath, List.append_assoc], rfl⟩
    · exact ih hf
  | dots name rest ih => exact ih hf

theorem files_entryName {entries : Listing} (hv : entries.Valid) {dirname : Bytes} {hidden : Bool}
    {f : Found} (hf : f ∈ entries.files dirname hidden) :
    entryName dirname f.path ∈ entries.names := by
  induction entries generalizing hidden with
  | nil => cases hf
  | file name rest ih =>
    rcases List.mem_cons.mp hf with rfl | hf
    · have hname : entryName dirname (nextPath dirname name ++ []) = name :=
        entryName_nextPath hv.1 (.inl rfl)
      rw [List.append_nil] at hname
      rw [hname]
      exact List.mem_cons_self
    · exact List.mem_cons_of_mem _ (ih hv.2.2 hf)
  | dir name sub rest ihsub ih =>
    rcases List.mem_append.mp hf with hf | hf
    · obtain ⟨tail, hpath, htail⟩ := files_slash hf
      rw [hpath, entryName_nextPath hv.1 (.inr htail)]
      exact List.mem_cons_self
    · exact List.mem_cons_of_mem _ (ih hv.2.2.2.2.2 hf)
  | dots name rest ih => exact ih hv.2 hf

/-- No two files have one path. -/
theorem files_nodup {entries : Listing} (hv : entries.Valid) {dirname : Bytes} {hidden : Bool} :
    ((entries.files dirname hidden).map (·.path)).Nodup := by
  induction entries generalizing dirname hidden with
  | nil => exact List.nodup_nil
  | file name rest ih =>
    refine List.nodup_cons.mpr ⟨fun hmem => ?_, ih hv.2.2⟩
    obtain ⟨f, hf, hpath⟩ := List.mem_map.mp hmem
    replace hpath : f.path = nextPath dirname name := hpath
    have hname : entryName dirname (nextPath dirname name ++ []) = name :=
      entryName_nextPath hv.1 (.inl rfl)
    rw [List.append_nil, ← hpath] at hname
    exact hv.2.1 (hname ▸ files_entryName hv.2.2 hf)
  | dir name sub rest ihsub ih =>
    unfold Listing.files
    rw [List.map_append]
    refine List.Nodup.append (ihsub hv.2.2.2.2.1) (ih hv.2.2.2.2.2) fun p hsub hrest => ?_
    obtain ⟨f, hf, rfl⟩ := List.mem_map.mp hsub
    obtain ⟨g, hg, hpath⟩ := List.mem_map.mp hrest
    obtain ⟨tail, htail, hslash⟩ := files_slash hf
    have hname : entryName dirname (nextPath dirname name ++ tail) = name :=
      entryName_nextPath hv.1 (.inr hslash)
    rw [← htail, ← hpath] at hname
    exact hv.2.2.2.1 (hname ▸ files_entryName hv.2.2.2.2.2 hg)
  | dots name rest ih => exact ih hv.2

/-! ## What leaves nothing out -/

theorem take_filter_iff {files : List Found} (h : (files.map (·.path)).Nodup) {k : Nat} :
    ((files.filter fun f => !f.hidden).map (·.path)).take k = (files.map (·.path)).take k ↔
      ∀ f ∈ files.take k, f.hidden = false := by
  constructor
  · intro heq f hf
    have hmem : f.path ∈ (files.map (·.path)).take k := by
      rw [← List.map_take]
      exact List.mem_map_of_mem hf
    rw [← heq] at hmem
    obtain ⟨g, hg, hpath⟩ := List.mem_map.mp (List.mem_of_mem_take hmem)
    obtain ⟨hg, hhidden⟩ := List.mem_filter.mp hg
    have : g = f := List.inj_on_of_nodup_map h hg (List.mem_of_mem_take hf) hpath
    subst this
    simpa using hhidden
  · intro hvis
    have hfirst : (files.take k).filter (fun f => !f.hidden) = files.take k :=
      List.filter_eq_self.mpr fun f hf => by rw [hvis f hf]; rfl
    -- either the first `k` are all there are, or they fill the places
    rcases Nat.le_total files.length k with hk | hk
    · rw [List.take_of_length_le hk] at hfirst
      rw [hfirst]
    · rw [← List.map_take, ← List.map_take]
      congr 1
      conv_lhs => rw [← List.take_append_drop k files, List.filter_append, hfirst]
      exact List.take_left' (by simpa using hk)

/-- `recDirectory` visits the first `n` files exactly if none of them lies below a
directory whose name ends with a point. -/
theorem recDirectory_iff {entries : Listing} (hv : entries.Valid) (dirname : Bytes) (n : Nat) :
    VisitsFirst dirname entries n ↔
      ∀ f ∈ firstFiles n (entries.files dirname false), f.hidden = false := by
  have hnodup : ((entries.files dirname false).map (·.path)).Nodup := files_nodup hv
  have hentered := files_entered entries dirname false
  rw [if_neg Bool.false_ne_true] at hentered
  -- all files are the first `length` ones
  obtain ⟨k, hfirst, hplays⟩ : ∃ k, firstFiles n (entries.files dirname false) =
      (entries.files dirname false).take k ∧
      ∀ x : List (Exchange Bytes fun _ => Int),
        (∃ c, Plays (walk dirname entries (startCount n)) x c) ↔
          x.map (·.1) = (entries.entered dirname).take k := by
    unfold firstFiles
    by_cases hn : n = 0
    · have hlen : (entries.entered dirname).length ≤ (entries.files dirname false).length := by
        rw [← hentered, List.length_map]
        exact List.length_filter_le _ _
      refine ⟨(entries.files dirname false).length, ?_, fun x => ?_⟩
      · rw [if_pos hn, List.take_length]
      · rw [plays_walk hv, if_pos hn, List.take_of_length_le hlen]
    · refine ⟨n, if_neg hn, fun x => ?_⟩
      rw [plays_walk hv, if_neg hn]
  have hcond := take_filter_iff hnodup (k := k)
  rw [hentered, ← List.map_take] at hcond
  rw [hfirst, ← hcond]
  obtain ⟨x, hx⟩ : ∃ x : List (Exchange Bytes fun _ => Int),
      x.map (·.1) = (entries.entered dirname).take k := by
    refine ⟨((entries.entered dirname).take k).map fun p => ⟨p, 0⟩, ?_⟩
    rw [List.map_map]
    exact List.map_id _
  obtain ⟨c, hc⟩ := (hplays x).mpr hx
  constructor
  · intro h
    rw [← hx, h.visited x c hc, hfirst]
  · intro heq
    have hvisited : ∀ y c, Plays (walk dirname entries (startCount n)) y c →
        y.map (·.1) = ((entries.files dirname false).take k).map (·.path) :=
      fun y c hy => ((hplays y).mp ⟨c, hy⟩).trans heq
    refine ⟨⟨x, c, hc⟩, fun y c hy => ?_, fun y c hy => ?_⟩
    · rw [hfirst]
      exact hvisited y c hy
    · rw [hvisited y c hy, List.map_take]
      exact (List.take_sublist _ _).nodup hnodup

/-- A directory `b` with a file `c`, between the files `a` and `e`. -/
def threeFiles : Listing :=
  .dots [dot] (.file [97] (.dir [98] (.file [99] .nil) (.file [101] .nil)))

theorem threeFiles_valid : threeFiles.Valid := by
  refine ⟨.inl rfl, ⟨?_, ?_, ?_⟩, ?_, ⟨?_, ?_, ?_⟩, ?_, ?_, ?_, ⟨⟨?_, ?_, ?_⟩, ?_, trivial⟩,
    ⟨?_, ?_, ?_⟩, ?_, trivial⟩ <;> decide

/-- The first two of them are wanted. -/
theorem recDirectory_two : VisitsFirst [100] threeFiles 2 :=
  (recDirectory_iff threeFiles_valid [100] 2).mpr (by decide)

/-- The file `c` below the directory `b.` is not visited. -/
theorem recDirectory_pointed :
    ¬ ∀ (entries : Listing), entries.Valid → ∀ (dirname : Bytes) (n : Nat),
      VisitsFirst dirname entries n := by
  intro h
  have hv : (Listing.dir [98, dot] (.file [99] .nil) .nil).Valid := by
    refine ⟨⟨?_, ?_, ?_⟩, ?_, ?_, ?_, ⟨⟨?_, ?_, ?_⟩, ?_, trivial⟩, trivial⟩ <;> decide
  have hvisited := (h _ hv [100] 0).visited [] _ (.done)
  cases hvisited

end FileStorage.Client
