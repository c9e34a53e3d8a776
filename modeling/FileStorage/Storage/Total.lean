import FileStorage.Lib.Run
import FileStorage.Storage.Store
import Mathlib.Algebra.BigOperators.Intervals
import Mathlib.Algebra.BigOperators.Ring.Finset
import Mathlib.Algebra.Order.BigOperators.Group.Finset

/-!
# The counters and what they count

`total w s` adds up a weight over the stored files; with the weight `1` it is
their number and with `fileSz` their size. `Balanced` says that the two
counters of the storage are exactly what is left of the capacities, and it is
kept by every operation on the store: each one moves a total and its counter by
the same amount.
-/

namespace FileStorage.Storage

open FileStorage.Lib

namespace Store

variable {s : Store} {n : NodeId} {f : File} {w : File → Int}

/-- The weight of the file behind an identity. -/
def weight (w : File → Int) (s : Store) (n : NodeId) : Int := ((s.files n).map w).getD 0

/-- The sum of a weight over the stored files. -/
def total (w : File → Int) (s : Store) : Int := ∑ n ∈ Finset.range s.brk, weight w s n

/-- Changing one file changes the total by the difference of its weights. -/
theorem total_update (w : File → Int) (s s' : Store) (hb : s'.brk = s.brk) (hn : n < s.brk)
    (hne : ∀ m, m ≠ n → s'.files m = s.files m) :
    total w s' = total w s - weight w s n + weight w s' n := by
  have hchange : total w s' + weight w s n = total w s + weight w s' n := by
    unfold total
    rw [hb]
    refine sum_change (Finset.mem_range.mpr hn) fun m _ hm => ?_
    unfold weight
    rw [hne m hm]
  omega

/-- A stored file weighs what `w` says. -/
theorem weight_some (h : s.files n = some f) : weight w s n = w f := by
  unfold weight; rw [h]; rfl

/-- A new file adds its weight. -/
theorem total_insert : total w (s.insert f) = total w s + w f := by
  have hnew : weight w (s.insert f) s.brk = w f := weight_some files_insert_self
  unfold total
  rw [show (s.insert f).brk = s.brk + 1 from rfl, Finset.sum_range_succ, hnew]
  refine congrArg (· + w f) (Finset.sum_congr rfl fun m hm => ?_)
  unfold weight
  rw [files_insert_ne (Nat.ne_of_lt (Finset.mem_range.mp hm))]

/-- A removal takes the weight of the file off. -/
theorem total_remove (hs : s.Fresh) (h : s.files n = some f) (g : File) :
    total w (s.remove n g) = total w s - w f := by
  rw [total_update w s (s.remove n g) rfl (hs n f h) fun m hm => files_remove_ne hm,
    weight_some h]
  unfold weight
  rw [files_remove_self]
  simp

/-- A weight that does not look at the owner is not moved by `setFd`. -/
theorem total_setFd (hs : s.Fresh) (h : s.files n = some f) (fd : Int)
    (hw : w { f with fdClientId := fd } = w f) : total w (s.setFd n fd) = total w s := by
  rw [total_update w s (s.setFd n fd) rfl (hs n f h) fun m hm => files_setFd_ne hm,
    weight_some h, weight_some (files_setFd_self h), hw]
  omega

/-- The identities of the stored files. -/
def stored (s : Store) : Finset NodeId := (Finset.range s.brk).filter fun n => (s.files n).isSome

theorem mem_stored (hs : s.Fresh) : n ∈ s.stored ↔ ∃ f, s.files n = some f := by
  unfold stored
  rw [Finset.mem_filter, Finset.mem_range, Option.isSome_iff_exists]
  exact ⟨fun h => h.2, fun ⟨f, hf⟩ => ⟨hs n f hf, f, hf⟩⟩

/-- With weight 1 the total is the number of files. -/
theorem total_one : total (fun _ => 1) s = s.stored.card := by
  have hw : ∀ n, weight (fun _ => 1) s n = if (s.files n).isSome = true then 1 else 0 := by
    intro n
    unfold weight
    cases s.files n <;> rfl
  unfold total stored
  rw [Finset.sum_congr rfl fun n _ => hw n]
  exact Finset.sum_boole _ _

/-- As many different stored files as there are stored files are all of them. -/
theorem mem_of_count {l : List NodeId} (hs : s.Fresh) (hnd : l.Nodup)
    (hcount : l.length = (total (fun _ => 1) s).toNat)
    (hl : ∀ m ∈ l, ∃ f, s.files m = some f) (hn : s.files n = some f) : n ∈ l := by
  have hsub : l.toFinset ⊆ s.stored := by
    intro m hm
    obtain ⟨g, hg⟩ := hl m (List.mem_toFinset.mp hm)
    exact (mem_stored hs).mpr ⟨g, hg⟩
  have hcard : s.stored.card ≤ l.toFinset.card := by
    rw [List.toFinset_card_of_nodup hnd, hcount, total_one, Int.toNat_natCast]
  have heq := Finset.eq_of_subset_of_card_le hsub hcard
  exact List.mem_toFinset.mp (heq ▸ (mem_stored hs).mpr ⟨f, hn⟩)

/-- Every stored file is as long as its content. -/
def Sized (s : Store) : Prop := ∀ n f, s.files n = some f → f.fileSz = f.contentFile.length

/-- A new file has the size of its content. -/
theorem Sized.insert (h : s.Sized) (hf : f.fileSz = f.contentFile.length) :
    (s.insert f).Sized := by
  intro m g hm
  rcases of_files_insert hm with ⟨-, rfl⟩ | ⟨-, hm⟩
  · exact hf
  · exact h m g hm

theorem Sized.remove (h : s.Sized) : (s.remove n f).Sized :=
  fun m g hm => h m g (of_files_remove hm).2

theorem Sized.setFd (h : s.Sized) {fd : Int} : (s.setFd n fd).Sized := by
  intro m g hm
  obtain ⟨g', hg', ⟨rfl, -⟩ | ⟨he, -⟩⟩ := of_files_setFd hm
  · exact h m g' hg'
  · rw [he]; exact h m g' hg'

/-- A file that is as long as its content grows by exactly the payload. -/
theorem Sized.append_content (h : s.Sized) (hf : s.files n = some f) (content : Bytes) :
    f.contentFile.take f.fileSz.toNat ++ content = f.contentFile ++ content := by
  rw [h n f hf, Int.toNat_natCast, List.take_length]

/-- An append adds to the size what it adds to the content. -/
theorem Sized.append (h : s.Sized) {content : Bytes} : (s.append n content).Sized := by
  intro m g hm
  obtain ⟨g', hg', ⟨rfl, -⟩ | ⟨he, -⟩⟩ := of_files_append hm
  · show g'.fileSz + _ = ((g'.contentFile.take g'.fileSz.toNat ++ content).length : Int)
    rw [h.append_content hg', List.length_append, h m g' hg']
    push_cast
    rfl
  · rw [he]; exact h m g' hg'

/-- The counters are what is left of the capacities. -/
structure Balanced (s : Store) : Prop where
  nfile : total (fun _ => 1) s = s.nfileTot - s.nfileDispo
  ram : total (·.fileSz) s = s.ramTot - s.ramDispo

/-- An empty file takes one slot. -/
theorem Balanced.insert (h : s.Balanced) (hf : f.fileSz = 0) :
    (s.insert f).Balanced := by
  have h1 := h.nfile
  have h2 := h.ram
  refine ⟨?_, ?_⟩
  · rw [total_insert]
    show _ = s.nfileTot - (s.nfileDispo - 1)
    omega
  · rw [total_insert, hf]
    show _ = s.ramTot - s.ramDispo
    omega

/-- A removal gives the slot and the bytes back. -/
theorem Balanced.remove (h : s.Balanced) (hs : s.Fresh) (hf : s.files n = some f) :
    (s.remove n f).Balanced := by
  have h1 := h.nfile
  have h2 := h.ram
  refine ⟨?_, ?_⟩
  · rw [total_remove hs hf]
    show _ = s.nfileTot - (s.nfileDispo + 1)
    omega
  · rw [total_remove hs hf]
    show _ = s.ramTot - (s.ramDispo + f.fileSz)
    omega

theorem Balanced.setFd (h : s.Balanced) (hs : s.Fresh) (hf : s.files n = some f) (fd : Int) :
    (s.setFd n fd).Balanced :=
  ⟨(total_setFd hs hf fd rfl).trans h.nfile, (total_setFd hs hf fd rfl).trans h.ram⟩

/-- An append takes its bytes. -/
theorem Balanced.append (h : s.Balanced) (hs : s.Fresh) (hf : s.files n = some f)
    (content : Bytes) : (s.append n content).Balanced := by
  have h1 := h.nfile
  have h2 := h.ram
  have hupd := fun w : File → Int => total_update w s (s.append n content) rfl
    (hs n f hf) fun m hm => files_append_ne hm
  refine ⟨?_, ?_⟩
  · rw [hupd, weight_some hf, weight_some (files_append_self hf)]
    show _ = s.nfileTot - s.nfileDispo
    omega
  · rw [hupd, weight_some hf, weight_some (files_append_self hf)]
    show _ - f.fileSz + (f.fileSz + content.length) = s.ramTot - (s.ramDispo - content.length)
    omega

theorem balanced_createStorage (ram nfile : Int) : (createStorage ram nfile).store.Balanced :=
  ⟨by simp [total, InfoStorage.store, createStorage],
    by simp [total, InfoStorage.store, createStorage]⟩

end Store

end FileStorage.Storage
