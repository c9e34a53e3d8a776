import FileStorage.Lib.Dialogue

/-!
# What a program may ask

A `Contract` looks at the questions of a program with states of its own: which
questions are allowed in a state, which answers can come there, and the state
behind an answer. `Keeps C post p s` says that the program `p` keeps to the
contract from the state `s` on, and that `post` holds where it comes to its end.

It is shown along the program, with `keeps_bind` and `keeps_forM`, and then holds of
all its runs, also of those that have not come to an end (`Keeps.respects`).
-/

namespace FileStorage.Lib

structure Contract (Q : Type) (A : Q → Type) (S : Type) where
  allows : S → Q → Prop
  answers : S → (q : Q) → A q → Prop
  after : S → (q : Q) → A q → S

namespace Dialogue

variable {Q : Type} {A : Q → Type} {S T α β : Type}

def Keeps (C : Contract Q A S) (post : α → S → Prop) : Dialogue Q A α → S → Prop
  | done a, s => post a s
  | exit, _ => True
  | ask q next, s => C.allows s q ∧ ∀ r, C.answers s q r → Keeps C post (next r) (C.after s q r)

/-- The runs, also those that have not come to an end. -/
inductive Begins : Dialogue Q A α → List (Exchange Q A) → Prop
  | start {p : Dialogue Q A α} : Begins p []
  | ask {q : Q} {next : A q → Dialogue Q A α} {r : A q} {x : List (Exchange Q A)} :
      Begins (next r) x → Begins (ask q next) (⟨q, r⟩ :: x)

/-- Every question is allowed where it is asked, as long as only answers come that
can come. -/
def Respects (C : Contract Q A S) : S → List (Exchange Q A) → Prop
  | _, [] => True
  | s, ⟨q, r⟩ :: x => C.allows s q ∧ (C.answers s q r → Respects C (C.after s q r) x)

/-- The contract, and the protocol `next` with its state. -/
def along (C : Contract Q A S) (next : T → Q → Option T) : Contract Q A (S × T) where
  allows s q := C.allows s.1 q ∧ (next s.2 q).isSome = true
  answers s := C.answers s.1
  after s q r := (C.after s.1 q r, (next s.2 q).getD s.2)

section

variable {C : Contract Q A S} {post post' : α → S → Prop} {p : Dialogue Q A α} {s : S} {a : α}
variable {f : α → Dialogue Q A β} {x : List (Exchange Q A)}

theorem Keeps.mono (h : Keeps C post p s) (hpost : ∀ a s, post a s → post' a s) :
    Keeps C post' p s := by
  induction p generalizing s with
  | done a => exact hpost a s h
  | exit => trivial
  | ask q next ih => exact ⟨h.1, fun r hr => ih r (h.2 r hr)⟩

theorem keeps_bind {post : β → S → Prop} :
    Keeps C post (p >>= f) s ↔ Keeps C (fun a s => Keeps C post (f a) s) p s := by
  show Keeps C post (p.bind f) s ↔ _
  induction p generalizing s with
  | done a => exact Iff.rfl
  | exit => exact Iff.rfl
  | ask q next ih => exact and_congr_right fun _ => forall₂_congr fun r _ => ih r

/-- A program and then another. -/
theorem Keeps.bind {post' : β → S → Prop} (h : Keeps C post p s)
    (hf : ∀ a s, post a s → Keeps C post' (f a) s) : Keeps C post' (p >>= f) s :=
  keeps_bind.mpr (h.mono hf)

/-- A loop with the invariant `I`. -/
theorem keeps_forM {ι : Type} (I : S → Prop) {g : ι → Dialogue Q A PUnit} {l : List ι}
    (h : ∀ i ∈ l, ∀ s, I s → Keeps C (fun _ => I) (g i) s) (hs : I s) :
    Keeps C (fun _ => I) (forM l g) s := by
  induction l generalizing s with
  | nil => exact hs
  | cons i l ih =>
    refine Keeps.bind (h i List.mem_cons_self s hs) fun _ s hs => ?_
    exact ih (fun j hj => h j (List.mem_cons_of_mem _ hj)) hs

/-- A program that keeps to the contract does so in every run. -/
theorem Keeps.respects (h : Keeps C post p s) (hx : Begins p x) : Respects C s x := by
  induction hx generalizing s with
  | start => trivial
  | ask _ ih => exact ⟨h.1, fun hr => ih (h.2 _ hr)⟩

/-- Under a protocol as well, which it then follows. -/
theorem Keeps.within {next : T → Q → Option T} {t : T} (h : Keeps C post p s) :
    Keeps (along C next) (fun a s => post a s.1) (p.within next t) (s, t) := by
  induction p generalizing s t with
  | done a => exact h
  | exit => trivial
  | ask q k ih =>
    unfold Dialogue.within
    cases hq : next t q with
    | none => trivial
    | some t' =>
      refine ⟨⟨h.1, by rw [hq]; rfl⟩, fun r hr => ?_⟩
      have hafter : (along C next).after (s, t) q r = (C.after s q r, t') := by
        show (C.after s q r, (next t q).getD t) = _
        rw [hq]
        rfl
      rw [hafter]
      exact ih r (h.2 r hr)

end

end Dialogue

end FileStorage.Lib
