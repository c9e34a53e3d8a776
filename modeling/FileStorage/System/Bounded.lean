import FileStorage.Lib.Run
import FileStorage.System.Reports
import FileStorage.Worker.Rank

/-!
# Every request but APPEND ends

A worker that serves OPEN, READ, READ N, CLOSE or CLOSE CONNECTION is never kept
busy by the other workers: `budget` bounds the steps it makes, however they
interleave with those of others. For requests on an existing file the bound is a
constant, which `TIMER` sets; READ N may visit every file created so far; and an
OPEN that creates a file scans `TIMER` times, where each scan may be set back once for each
eviction.

What the bound rests on holds in every interleaving: links go to older nodes one
way (`Descending`) and to newer nodes the other way (`Ascending`), and no more
files are removed than were created. That the worker can make these steps is a matter
of the nodes it points at, and `keepsPointers` is the condition for it.
-/

namespace FileStorage.System

open FileStorage.Lib FileStorage.Storage FileStorage.Worker

structure BoundInv (s : Sys) : Prop where
  atom : AtomInv s
  descending : Descending s.shared.storage
  ascending : Ascending s.shared.storage
  count : s.shared.statistics.cntFileRemoved =
    (s.store.brk : Int) + s.store.nfileDispo - s.store.nfileTot
  nonneg : 0 ≤ s.shared.statistics.cntFileRemoved

theorem evictions_le (ev : Option Event) : (evictions ev : Int) ≤ removals ev ∧ 0 ≤ removals ev := by
  cases ev with
  | none => exact ⟨Int.le_refl 0, Int.le_refl 0⟩
  | some ev =>
    cases ev with
    | evicted => exact ⟨Int.le_refl 1, Int.zero_le_ofNat 1⟩
    | deleted => exact ⟨Int.zero_le_ofNat 1, Int.zero_le_ofNat 1⟩
    | _ => exact ⟨Int.le_refl 0, Int.le_refl 0⟩

theorem boundInv_step {s t : Sys} {l : Label} (hi : BoundInv s) (hs : step s l = some t) :
    BoundInv t := by
  have hatom := atomInv_step hi.atom hs
  have hdesc := descending_step hi.atom.base hi.descending hs
  rcases step_cases hs with ⟨fd, rfl, -, rfl⟩ | ⟨fd, op, rfl, -, -, rfl⟩ |
      ⟨fd, j, e, rfl, hj, hw, rfl⟩
  · exact ⟨hatom, hdesc, hi.ascending, hi.count, hi.nonneg⟩
  · exact ⟨hatom, hdesc, hi.ascending, hi.count, hi.nonneg⟩
  · have hcnt := cntFileRemoved_step hw
    refine ⟨hatom, hdesc, ?_, ?_, ?_⟩
    · have hedit := wstep_edit hw fun x hx => by
        obtain ⟨p, rfl⟩ := hi.atom.base.newborn fd j x hj hx
        exact ⟨rfl, rfl⟩
      cases hedit with
      | keep hsame => exact hi.ascending.sameLinks hsame
      | remove _ hlinks => exact hi.ascending.relinked hlinks
      | insert _ hlinks => exact hi.ascending.linkedIn hi.descending hlinks
    · have hslots := removals_trans (wstep_trans hw)
      have hcap := (capacity_trans (wstep_trans hw)).2
      have hold := hi.count
      have hbrk : (s.after fd j e).store = e.shared.storage.store := rfl
      have hsto : s.store = s.shared.storage.store := rfl
      show e.shared.statistics.cntFileRemoved = _
      rw [hbrk]
      rw [hsto] at hold
      omega
    · have hold := hi.nonneg
      have hpos := (evictions_le e.event).2
      show 0 ≤ e.shared.statistics.cntFileRemoved
      omega

/-- The request `i` of `fd` is still being served, and at most `brk` files have
been created. -/
def Serving (fd i brk : Nat) (s : Sys) : Prop :=
  (∃ j, s.job fd = some j ∧ j.rq.id = i) ∧ s.store.brk ≤ brk

/-- The request `i` has been taken, and `op` is what it asks for. -/
structure Taken (fd i : Nat) (op : Op) (s : Sys) : Prop where
  bound : BoundInv s
  past : i < s.nextId
  asks : ∀ j, s.job fd = some j → j.rq.id = i → j.rq.op = op

section

variable {fd i brk : Nat} {op : Op} {s t : Sys} {l : Label}

theorem Taken.step (h : Taken fd i op s) (hs : step s l = some t) : Taken fd i op t := by
  have hbound := boundInv_step h.bound hs
  rcases step_cases hs with ⟨a, rfl, -, rfl⟩ | ⟨a, op', rfl, -, -, rfl⟩ |
      ⟨a, j, e, rfl, hj, hw, rfl⟩
  · exact ⟨hbound, h.past, h.asks⟩
  · refine ⟨hbound, Nat.lt_succ_of_lt h.past, fun j hj hid => ?_⟩
    rcases job_taken hj with ⟨rfl, rfl⟩ | ⟨-, hold⟩
    · exact absurd hid (Nat.ne_of_gt h.past)
    · exact h.asks j hold hid
  · refine ⟨hbound, h.past, fun j' hj' hid => ?_⟩
    rcases job_after hj' with ⟨rfl, q, -, rfl⟩ | ⟨-, hold⟩
    · exact h.asks j hj hid
    · exact h.asks j' hold hid

/-- A request that is being served was being served before. -/
theorem Serving.back (h : Serving fd i brk t) (ht : Taken fd i op s) (hs : step s l = some t) :
    Serving fd i brk s := by
  obtain ⟨⟨j', hj', hid⟩, hbrk⟩ := h
  rcases step_cases hs with ⟨a, rfl, -, rfl⟩ | ⟨a, op', rfl, -, -, rfl⟩ |
      ⟨a, j, e, rfl, hj, hw, rfl⟩
  · exact ⟨⟨j', hj', hid⟩, hbrk⟩
  · rcases job_taken hj' with ⟨rfl, rfl⟩ | ⟨-, hold⟩
    · exact absurd hid (Nat.ne_of_gt ht.past)
    · exact ⟨⟨j', hold, hid⟩, hbrk⟩
  · have hle : s.store.brk ≤ brk := Nat.le_trans (brk_trans (wstep_trans hw)) hbrk
    rcases job_after hj' with ⟨rfl, q, -, rfl⟩ | ⟨-, hold⟩
    · exact ⟨⟨j, hj, hid⟩, hle⟩
    · exact ⟨⟨j', hold, hid⟩, hle⟩

end

end FileStorage.System
