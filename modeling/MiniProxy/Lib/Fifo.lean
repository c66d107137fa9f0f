import MiniProxy.Lib.Run

/-!
# Bounded FIFO queues

The queue of capacity `n` as a labelled system: `push` appends while there is room, `pop` takes
the head.

* **`path_contents`**: along a run from the empty queue, what was pushed is what was popped
  followed by the contents;
* `path_length_le`: the contents never exceed the capacity;
* `popped_prefix`: the values come out in the order in which they went in, none lost, doubled or
  invented.
-/

namespace Fifo

variable {α : Type*}

/-- The operations of a queue. -/
inductive Op (α : Type*) where
  | push (x : α)
  | pop (x : α)

/-- One operation on the contents. -/
inductive Step (n : ℕ) : List α → Op α → List α → Prop
  | push (q : List α) (x : α) (h : q.length < n) : Step n q (.push x) (q ++ [x])
  | pop (x : α) (q : List α) : Step n (x :: q) (.pop x) q

/-- The value an operation puts in. -/
def Op.pushed? : Op α → Option α
  | .push x => some x
  | .pop _ => none

/-- The value an operation takes out. -/
def Op.popped? : Op α → Option α
  | .push _ => none
  | .pop x => some x

/-- The values pushed along a run, in order. -/
def pushed (tr : List (Op α)) : List α := tr.filterMap Op.pushed?

/-- The values popped along a run, in order. -/
def popped (tr : List (Op α)) : List α := tr.filterMap Op.popped?

variable {n : ℕ} {tr : List (Op α)} {q : List α}

theorem path_contents (h : Lts.Path (Step n) [] tr q) : pushed tr = popped tr ++ q := by
  refine Lts.Path.invariant (fun tr q => pushed tr = popped tr ++ q) rfl ?_ h
  intro tr q a q' hq hs
  cases hs with
  | push q x hlt =>
    simp only [pushed, popped, List.filterMap_append] at hq ⊢
    simp [hq, Op.pushed?, Op.popped?]
  | pop x q =>
    simp only [pushed, popped, List.filterMap_append] at hq ⊢
    simp [hq, Op.pushed?, Op.popped?]

theorem path_length_le (h : Lts.Path (Step n) [] tr q) : q.length ≤ n := by
  refine Lts.Path.invariant_state (fun q : List α => q.length ≤ n) (by simp) ?_ h
  intro q a q' hq hs
  cases hs with
  | push q x hlt =>
    rw [List.length_append, List.length_singleton]
    omega
  | pop x q =>
    rw [List.length_cons] at hq
    omega

theorem popped_prefix (h : Lts.Path (Step n) [] tr q) : popped tr <+: pushed tr :=
  ⟨q, (path_contents h).symm⟩

end Fifo
