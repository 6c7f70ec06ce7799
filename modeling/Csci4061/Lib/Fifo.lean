import Csci4061.Lib.Transition
import Mathlib.Data.List.Infix

/-!
# The bounded first-in first-out queue

The purpose of a bounded buffer, stated without any storage: a list of at most `capacity`
elements, appended at one end and removed at the other. Along every run the elements pushed
are the elements popped followed by the contents, which is loss, duplication and reordering
excluded at once.
-/

namespace Csci4061.Lib

variable {α : Type*}

/-- One element enters at the back or leaves at the front. -/
inductive FifoLabel (α : Type*)
  | push (x : α)
  | pop (x : α)

/-- A queue which accepts an element only below its capacity. -/
def boundedFifo (α : Type*) (capacity : ℕ) : TransitionSystem (List α) (FifoLabel α) where
  init contents := contents = []
  step contents label contents' :=
    match label with
    | .push x => contents.length < capacity ∧ contents' = contents ++ [x]
    | .pop x => contents = x :: contents'

/-- The element pushed by a step, if it pushes one. -/
def FifoLabel.pushed : FifoLabel α → Option α
  | .push x => some x
  | .pop _ => none

/-- The element popped by a step, if it pops one. -/
def FifoLabel.popped : FifoLabel α → Option α
  | .push _ => none
  | .pop x => some x

/-- Every pushed element is popped or still there, in the order of the pushes. -/
theorem boundedFifo_pushed_eq {capacity : ℕ} {labels : List (FifoLabel α)} {contents : List α}
    (hrun : (boundedFifo α capacity).Run [] labels contents) :
    labels.filterMap FifoLabel.pushed = labels.filterMap FifoLabel.popped ++ contents := by
  induction hrun with
  | nil => rfl
  | @snoc labels contents contents' label _ hlast ih =>
    rw [List.filterMap_append, List.filterMap_append, ih]
    cases label with
    | push x =>
      obtain ⟨-, rfl⟩ := hlast
      simp [FifoLabel.pushed, FifoLabel.popped]
    | pop x =>
      have hcontents : contents = x :: contents' := hlast
      simp [FifoLabel.pushed, FifoLabel.popped, hcontents]

end Csci4061.Lib
