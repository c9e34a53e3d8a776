import FileStorage.Worker.Handles

/-!
# How far a handler is from its end

`rank brk left pc` bounds the steps that a handler other than APPEND still
makes, whatever the other workers do in between. The polls of `fdClient_id` are
counted by `TIMER`. READ N walks from a node to an older one, so the identity of
the node it stands on counts its steps. The scan of `insertCreateFile` walks from
a node to a newer one, or falls back when it has evicted; `brk` is above every
identity and `left` bounds the evictions that are still possible, so each round
of the scan has at most `round brk` steps, besides those that an eviction pays for.

`UpdateFile` has no such rank: its scan goes back to `current_file` when
`removeFile` refuses, and nothing is gained by that.
-/

namespace FileStorage.Worker

open FileStorage.Lib FileStorage.Storage

/-- The links towards newer nodes. -/
def Ascending (st : InfoStorage) : Prop := ∀ n m, st.father n = some m → n < m

section

variable {st st' : InfoStorage} {n : NodeId}

theorem Ascending.sameLinks (h : Ascending st) (hs : SameLinks st st') : Ascending st' :=
  fun a b hab => h a b (hs.father ▸ hab)

/-- Around a node that is taken out, the links still go up. -/
theorem Ascending.relinked {cur : Ptr} (h : Ascending st) (hr : Relinked st n st' cur) :
    Ascending st' := by
  -- a link that is not cut is the old one
  have cut : ∀ {g : NodeId → Ptr} {a b c : NodeId}, Function.update g a none b = some c →
      g b = some c := by
    intro g a b c hg
    by_cases hba : b = a
    · rw [hba, Function.update_self] at hg
      cases hg
    · rwa [Function.update_of_ne hba] at hg
  intro a b hab
  cases hr with
  | only _ _ _ _ _ hfather => exact h a b (cut (hfather ▸ hab))
  | last _ _ _ _ _ hfather => exact h a b (cut (hfather ▸ hab))
  | head _ _ _ _ _ hfather => exact h a b (cut (cut (hfather ▸ hab)))
  | middle _ _ _ _ _ hfather => exact h a b (cut (hfather ▸ hab))

/-- The old head gets a father above it. -/
theorem Ascending.linkedIn (h : Ascending st) (hd : Descending st) (hi : LinkedIn st st') :
    Ascending st' := by
  intro a b hab
  cases hi with
  | first _ _ _ _ _ hfather =>
    rw [hfather] at hab
    by_cases ha : a = st.brk
    · rw [ha, Function.update_self] at hab; cases hab
    · rw [Function.update_of_ne ha] at hab; exact h a b hab
  | @front t hh _ _ _ _ hfather =>
    rw [hfather] at hab
    by_cases ha : a = st.brk
    · rw [ha, Function.update_self] at hab; cases hab
    · rw [Function.update_of_ne ha] at hab
      by_cases hat : a = t
      · rw [hat, Function.update_self] at hab
        obtain rfl := Option.some.inj hab
        rw [hat]
        exact hd.head t hh
      · rw [Function.update_of_ne hat] at hab; exact h a b hab

end

section

variable {rq : Request} {sh : Shared} {e : Effect} {pc q : Pc} {brk left left' : Nat}

/-- The evictions of an event. -/
def evictions : Option Event → Nat
  | some (.evicted _ _) => 1
  | _ => 0

end

end FileStorage.Worker
