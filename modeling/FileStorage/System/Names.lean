import FileStorage.System.Base

/-!
# Pathnames are keys

OPEN looks a name up in one section and inserts the new node in a later one.
Between the two the worker is `creating`: it holds a node that nobody else can
see. A failed search has seen every stored file (`Storage.absent_names`), so at
that moment the name is free; it stays free as long as nobody else inserts it.

`insertsAlone` is that condition: a node is not inserted while another worker
holds a node of the same name. Under it `NamesInv` is kept by every step of
every interleaving: the stored names differ, and what a worker is creating is
not stored. The second part is why of several OPENs that race to create one
name only one succeeds: once it has, nobody is creating the name any more.
-/

namespace FileStorage.System

open FileStorage.Lib FileStorage.Storage FileStorage.Worker

/-- A file is inserted only while no other worker is about to insert one of the
same name. -/
def insertsAlone (s : Sys) : Label → Prop
  | .work fd =>
    match s.pc fd with
    | some (.insert x _ .commit) =>
      ∀ fd' pc y, fd' ≠ fd → s.pc fd' = some pc → creating pc = some y → y.pathname ≠ x.pathname
    | _ => True
  | _ => True

section

variable {rq : Request} {A : Bytes → Prop} {pc q : Pc} {pc' : Option Pc} {st st' : Store}
variable {ev : Option Event} {n : NodeId} {f : File} {x : Node}

/-- No step renames a file; only an insertion adds a name. -/
theorem name_trans (h : Trans rq A pc st pc' st' ev) (hf : st'.files n = some f) :
    (∃ g, st.files n = some g ∧ g.pathname = f.pathname) ∨
      ∃ x rm, pc = .insert x rm .commit ∧ n = st.brk ∧ f = x.toFile ∧ pc' ≠ none ∧
        ∀ q, pc' = some q → creating q = none := by
  have kept : ∀ {m : NodeId} {g : File}, (st.remove m g).files n = some f →
      ∃ g, st.files n = some g ∧ g.pathname = f.pathname :=
    fun h => ⟨f, (Store.of_files_remove h).2, rfl⟩
  have owner : ∀ {m : NodeId} {v : Int}, (st.setFd m v).files n = some f →
      ∃ g, st.files n = some g ∧ g.pathname = f.pathname := by
    intro m v h
    obtain ⟨g, hg, ⟨rfl, -⟩ | ⟨he, -⟩⟩ := Store.of_files_setFd h
    · exact ⟨g, hg, rfl⟩
    · exact ⟨g, hg, by rw [he]⟩
  cases h with
  | insEvict => exact .inl (kept hf)
  | updEvict => exact .inl (kept hf)
  | updDelete => exact .inl (kept hf)
  | nSend => exact .inl (owner hf)
  | closeTake => exact .inl (owner hf)
  | openTake => exact .inl (owner hf)
  | insCommit =>
    rcases Store.of_files_insert hf with ⟨rfl, rfl⟩ | ⟨-, hold⟩
    · refine .inr ⟨_, _, rfl, rfl, rfl, by simp, fun q hq => ?_⟩
      cases hq
      rfl
    · exact .inl ⟨f, hold, rfl⟩
  | updCommit =>
    obtain ⟨g, hg, ⟨rfl, -⟩ | ⟨he, -⟩⟩ := Store.of_files_append hf
    · exact .inl ⟨g, hg, rfl⟩
    · exact .inl ⟨g, hg, by rw [he]⟩
  | _ => exact .inl ⟨f, hf, rfl⟩

/-- A worker creates a file because it did before, or because it has just
looked for the name in vain. -/
theorem creating_absent (h : Trans rq A pc st pc' st' ev) (hq : pc' = some q)
    (hx : creating q = some x) : creating pc = some x ∨ (st' = st ∧ A x.pathname) := by
  cases h with
  | openNew ha => cases hq; cases hx; exact .inr ⟨rfl, ha⟩
  | insMove => cases hq; exact .inl hx
  | insEvict => cases hq; exact .inl hx
  | _ => cases hq <;> cases hx

end

/-- The links keep going to older nodes in every run. -/
theorem descending_step {s t : Sys} {l : Label} (hb : Base s)
    (hd : Descending s.shared.storage) (h : step s l = some t) :
    Descending t.shared.storage := by
  rcases step_cases h with ⟨fd, rfl, hc, rfl⟩ | ⟨fd, op, rfl, hj, hc, rfl⟩ |
      ⟨fd, j, e, rfl, hj, he, rfl⟩
  · exact hd
  · exact hd
  · have hedit := wstep_edit he (fun x hx => by
      obtain ⟨p, rfl⟩ := hb.newborn fd j x hj hx
      exact ⟨rfl, rfl⟩)
    cases hedit with
    | keep hsame => exact hd.sameLinks hsame
    | remove _ hlinks hf hst => exact hd.relinked hlinks (hb.fresh _ _ hf) (congrArg Store.brk hst)
    | insert _ hlinks hst => exact hd.linkedIn hlinks (congrArg Store.brk hst)

/-- Stored names differ, and no worker is creating a stored name. -/
structure NamesInv (s : Sys) : Prop where
  base : Base s
  links : Descending s.shared.storage
  keys : ∀ n m f g, s.store.files n = some f → s.store.files m = some g →
    f.pathname = g.pathname → n = m
  pending : ∀ fd pc x n f, s.pc fd = some pc → creating pc = some x →
    s.store.files n = some f → f.pathname ≠ x.pathname

theorem namesInv_init (ram nfile : Int) (sockname : Bytes) :
    NamesInv (init ram nfile sockname) where
  base := base_init ram nfile sockname
  links := descending_createStorage ram nfile
  keys := by intro n m f g h; cases h
  pending := by intro fd pc x n f h; cases h

theorem namesInv_step {s t : Sys} {l : Label} (hi : NamesInv s) (hg : insertsAlone s l)
    (h : step s l = some t) : NamesInv t := by
  have hbase := base_step hi.base h
  have hlinks := descending_step hi.base hi.links h
  rcases step_cases h with ⟨fd, rfl, hc, rfl⟩ | ⟨fd, op, rfl, hj, hc, rfl⟩ |
      ⟨fd, j, e, rfl, hj, -, -⟩
  · exact ⟨hbase, hlinks, hi.keys, hi.pending⟩
  · refine ⟨hbase, hlinks, hi.keys, fun fd' pc x n f hpc hx hf => ?_⟩
    rcases pc_taken hpc with ⟨rfl, rfl⟩ | ⟨-, hold⟩
    · cases op <;> cases hx
    · exact hi.pending fd' pc x n f hold hx hf
  · obtain ⟨j, e, hj, rfl, htr⟩ := work_cases h
    have hpc : s.pc fd = some j.pc := by unfold Sys.pc; rw [hj]; rfl
    refine ⟨hbase, hlinks, fun n m f g hf hg' hname => ?_, fun fd' pc x n f hpc' hx hf => ?_⟩
    · rcases name_trans htr hf with ⟨f', hf', hn⟩ | ⟨x, rm, hx, rfl, rfl, -⟩ <;>
        rcases name_trans htr hg' with ⟨g', hg'', hn'⟩ | ⟨y, rm', hy, rfl, rfl, -⟩
      · exact hi.keys n m f' g' hf' hg'' (by rw [hn, hn', hname])
      · exact absurd (hn.trans hname) (hi.pending fd j.pc y n f' hpc (by rw [hy]; rfl) hf')
      · exact absurd (hn'.trans hname.symm) (hi.pending fd j.pc x m g' hpc (by rw [hx]; rfl) hg'')
      · rfl
    · -- a worker that is creating now was before, or has just searched in vain
      have stored : ∀ {y : Node}, (∃ g, s.store.files n = some g ∧ g.pathname = f.pathname) →
          (∀ g, s.store.files n = some g → g.pathname ≠ y.pathname) →
          f.pathname ≠ y.pathname := by
        intro y ⟨g, hg'', hn⟩ hne
        rw [← hn]
        exact hne g hg''
      rcases pc_after hpc' with ⟨rfl, hq⟩ | ⟨hne, hold⟩
      · rcases name_trans htr hf with hold | ⟨y, rm, hy, rfl, rfl, -, hdone⟩
        · refine stored hold fun g hg'' => ?_
          rcases creating_absent htr hq hx with hcr | ⟨-, habs⟩
          · exact hi.pending fd' j.pc x n g hpc hcr hg''
          · intro hname
            exact absent_names habs hi.links hi.base.balanced hi.base.fresh n g hg''
              (hname ▸ List.prefix_refl _)
        · rw [hdone pc hq] at hx
          cases hx
      · rcases name_trans htr hf with hold' | ⟨y, rm, hy, rfl, rfl, -⟩
        · exact stored hold' fun g hg'' => hi.pending fd' pc x n g hold hx hg''
        · simp only [insertsAlone, hpc, hy] at hg
          exact Ne.symm (hg fd' pc x hne hold hx)

/-- **Pathnames are keys** in every run in which no two workers insert one name
at the same time: stored files have different names, and a file that an OPEN
has created leaves no other OPEN creating its name. -/
theorem pathnames_are_keys {ram nfile : Int} {sockname : Bytes} {s : Sys}
    (h : Reach step insertsAlone (init ram nfile sockname) s) :
    (∀ n m f g, s.shared.storage.file n = some f → s.shared.storage.file m = some g →
      f.pathname = g.pathname → n = m) ∧
    (∀ fd pc x n f, s.pc fd = some pc → creating pc = some x →
      s.shared.storage.file n = some f → f.pathname ≠ x.pathname) := by
  have hi := h.invariant NamesInv (namesInv_init ram nfile sockname)
    fun _ _ _ hi hg hs => namesInv_step hi hg hs
  exact ⟨hi.keys, hi.pending⟩

/-- `insertsAlone` where only the clients `fds` are served. -/
def insertsAloneTest (fds : List Nat) (s : Sys) : Label → Bool
  | .work fd =>
    match s.pc fd with
    | some (.insert x _ .commit) =>
      others fds s fd fun pc => (creating pc).all fun y => y.pathname != x.pathname
    | _ => true
  | _ => true

theorem insertsAlone_of_test {fds : List Nat} {s : Sys} {l : Label} (hs : Only fds s)
    (h : insertsAloneTest fds s l = true) : insertsAlone s l := by
  cases l with
  | work fd =>
    simp only [insertsAloneTest] at h
    simp only [insertsAlone]
    split
    · next hpc =>
      rw [hpc] at h
      intro fd' pc y hne hpc' hy
      simpa [hy] using others_pass hs h fd' pc hne hpc'
    · trivial
  | _ => trivial

/-- Two workers create `/a` and `/b` at the same time. -/
theorem pathnames_are_keys_two :
    ∃ s f g, Reach step insertsAlone (init 10 3 []) s ∧ s.shared.storage.file 0 = some f ∧
      s.shared.storage.file 1 = some g ∧ f.pathname ≠ g.pathname := by
  obtain ⟨s, hr, hp⟩ := Reach.of_guarded_test step
    (fun s l => among [4, 5] s l && insertsAloneTest [4, 5] s l) (init 10 3 [])
    [.accept 4, .accept 5, .request 4 (.openFile [47, 97] [49]),
      .request 5 (.openFile [47, 98] [49]), .work 4, .work 5, .work 4, .work 5, .work 4, .work 5]
    (fun s => (s.shared.storage.file 0).isSome && (s.shared.storage.file 1).isSome)
    (by decide +kernel)
  have hreach : Reach step insertsAlone (init 10 3 []) s :=
    reach_of_test (fun s l hs ht => insertsAlone_of_test hs ht) hr
  simp only [Bool.and_eq_true, Option.isSome_iff_exists] at hp
  obtain ⟨⟨f, hf⟩, ⟨g, hg⟩⟩ := hp
  refine ⟨s, f, g, hreach, hf, hg, fun hname => ?_⟩
  exact absurd ((pathnames_are_keys hreach).1 0 1 f g hf hg hname) (by decide)

/-- Clients 4 and 5 both look for `/a` in vain, and both create it. -/
theorem name_created_twice :
    ∃ s, Reach step anyStep (init 10 3 []) s ∧ ∃ n m f g, n ≠ m ∧
      s.shared.storage.file n = some f ∧ s.shared.storage.file m = some g ∧
      f.pathname = g.pathname := by
  obtain ⟨s, hr, hp⟩ := Reach.of_run_test step (init 10 3 [])
    [.accept 4, .accept 5, .request 4 (.openFile [47, 97] [49]),
      .request 5 (.openFile [47, 97] [49]), .work 4, .work 5, .work 4, .work 5, .work 4, .work 5]
    (fun s => (s.shared.storage.file 0).map (·.pathname) == some [47, 97] &&
      (s.shared.storage.file 1).map (·.pathname) == some [47, 97]) (by decide +kernel)
  simp only [Bool.and_eq_true, beq_iff_eq, Option.map_eq_some_iff] at hp
  obtain ⟨⟨f, hf, hf'⟩, ⟨g, hg, hg'⟩⟩ := hp
  exact ⟨s, hr, 0, 1, f, g, by decide, hf, hg, hf'.trans hg'.symm⟩

end FileStorage.System
