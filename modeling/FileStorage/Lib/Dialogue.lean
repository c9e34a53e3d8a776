import Mathlib.Data.List.Basic

/-!
# Programs that ask and are answered

A `Dialogue` is a program whose effects are questions `q : Q`, each answered
from outside by a value of type `A q`; it may also end the process. What the
answers are is not fixed, so `Plays p x a`, "with the exchanges `x` the program
`p` comes to its end with the value `a`", covers every environment.

A play is taken apart along the program, with `plays_bind`, `plays_query` and
`plays_pure` as rewrite rules.

Questions can be subject to a protocol, an automaton over them (`within`). The
plays under it are those of the program that follow it (`plays_within`).
-/

namespace FileStorage.Lib

/-- A program that asks, with an answer type for each query, and goes on with the
answer. -/
inductive Dialogue (Q : Type) (A : Q → Type) (α : Type) where
  | done (a : α)
  | exit
  | ask (q : Q) (next : A q → Dialogue Q A α)

namespace Dialogue

variable {Q : Type} {A : Q → Type} {α β : Type}

/-- One program behind another. -/
def bind (p : Dialogue Q A α) (f : α → Dialogue Q A β) : Dialogue Q A β :=
  match p with
  | done a => f a
  | exit => exit
  | ask q next => ask q fun r => (next r).bind f

instance : Monad (Dialogue Q A) where
  pure := done
  bind := bind

/-- A question, and its answer as the value. -/
def query (q : Q) : Dialogue Q A (A q) := ask q done

/-- A question with its answer. -/
abbrev Exchange (Q : Type) (A : Q → Type) : Type := (q : Q) × A q

/-- The runs that come to an end. -/
inductive Plays : Dialogue Q A α → List (Exchange Q A) → α → Prop
  | done {a : α} : Plays (done a) [] a
  | ask {q : Q} {next : A q → Dialogue Q A α} {r : A q} {x : List (Exchange Q A)} {a : α} :
      Plays (next r) x a → Plays (ask q next) (⟨q, r⟩ :: x) a

variable {p : Dialogue Q A α} {f : α → Dialogue Q A β} {x : List (Exchange Q A)} {a b : α} {c : β}

/-- A result is reached without a query. -/
theorem plays_pure : Plays (pure a : Dialogue Q A α) x b ↔ x = [] ∧ b = a := by
  constructor
  · rintro ⟨⟩
    exact ⟨rfl, rfl⟩
  · rintro ⟨rfl, rfl⟩
    exact .done

/-- A program that ends its process has no result. -/
theorem not_plays_exit : ¬ Plays (exit : Dialogue Q A α) x a := by
  rintro ⟨⟩

/-- A query stands in front of what follows its answer. -/
theorem plays_ask {q : Q} {next : A q → Dialogue Q A α} :
    Plays (ask q next) x a ↔ ∃ r y, x = ⟨q, r⟩ :: y ∧ Plays (next r) y a := by
  constructor
  · rintro ⟨⟩
    exact ⟨_, _, rfl, ‹_›⟩
  · rintro ⟨r, y, rfl, h⟩
    exact .ask h

/-- A play of two programs in sequence is a play of one and then of the other. -/
theorem plays_bind :
    Plays (p >>= f) x c ↔ ∃ y z a, x = y ++ z ∧ Plays p y a ∧ Plays (f a) z c := by
  show Plays (p.bind f) x c ↔ _
  induction p generalizing x with
  | done a =>
    refine ⟨fun h => ⟨[], x, a, rfl, .done, h⟩, ?_⟩
    rintro ⟨y, z, a', rfl, hy, hz⟩
    obtain ⟨rfl, rfl⟩ := plays_pure.mp hy
    exact hz
  | exit =>
    refine ⟨fun h => absurd h not_plays_exit, ?_⟩
    rintro ⟨y, z, a, rfl, hy, -⟩
    exact absurd hy not_plays_exit
  | ask q next ih =>
    unfold bind
    rw [plays_ask]
    constructor
    · rintro ⟨r, y, rfl, h⟩
      obtain ⟨y, z, a, rfl, hy, hz⟩ := (ih r).mp h
      exact ⟨⟨q, r⟩ :: y, z, a, rfl, .ask hy, hz⟩
    · rintro ⟨y, z, a, rfl, hy, hz⟩
      obtain ⟨r, y', rfl, hnext⟩ := plays_ask.mp hy
      exact ⟨r, y' ++ z, rfl, (ih r).mpr ⟨y', z, a, rfl, hnext, hz⟩⟩

theorem plays_query {q : Q} {f : A q → Dialogue Q A β} :
    Plays (query q >>= f) x c ↔ ∃ r y, x = ⟨q, r⟩ :: y ∧ Plays (f r) y c :=
  plays_ask

/-- A program under a protocol: `next s q` is the state behind the question `q`,
and a question that `next` does not allow ends the process. -/
def within {S : Type} (next : S → Q → Option S) (s : S) : Dialogue Q A α → Dialogue Q A α
  | done a => done a
  | exit => exit
  | ask q k =>
    match next s q with
    | none => exit
    | some s => ask q fun r => (k r).within next s

/-- A budget for the queries rules out the dialogues that exceed it, and no other. -/
theorem plays_within {S : Type} {next : S → Q → Option S} {s : S} :
    Plays (p.within next s) x a ↔
      Plays p x a ∧ ∃ s', (x.map (·.1)).foldlM next s = some s' := by
  induction p generalizing x s with
  | done b =>
    refine ⟨fun h => ⟨h, s, ?_⟩, And.left⟩
    obtain ⟨rfl, -⟩ := plays_pure.mp h
    rfl
  | exit => exact ⟨fun h => absurd h not_plays_exit, fun h => absurd h.1 not_plays_exit⟩
  | ask q k ih =>
    unfold within
    rw [plays_ask]
    cases hq : next s q with
    | none =>
      refine ⟨fun h => absurd h not_plays_exit, ?_⟩
      rintro ⟨⟨r, y, rfl, -⟩, s', hs'⟩
      rw [List.map_cons, List.foldlM_cons, hq] at hs'
      cases hs'
    | some s₁ =>
      have hfold : ∀ r y, ((⟨q, r⟩ :: y : List (Exchange Q A)).map (·.1)).foldlM next s =
          (y.map (·.1)).foldlM next s₁ := by
        intro r y
        rw [List.map_cons, List.foldlM_cons, hq]
        rfl
      rw [plays_ask]
      constructor
      · rintro ⟨r, y, rfl, h⟩
        obtain ⟨hy, hs'⟩ := (ih r).mp h
        exact ⟨⟨r, y, rfl, hy⟩, hfold r y ▸ hs'⟩
      · rintro ⟨⟨r, y, rfl, hy⟩, hs'⟩
        exact ⟨r, y, rfl, (ih r).mpr ⟨hy, hfold r y ▸ hs'⟩⟩

end Dialogue

end FileStorage.Lib
