import Csci4061.Chat.Network

/-!
# What the server hears from its users

In `Network` a bit tells a child whether it is at the end of file of its user. Here the bit is compared
with the descriptors of all processes: in every state which is reached it says that some process has the
write end of the pipe open. So a child writes its exit notice only after its user has quit and the last
byte of the user is on its way to the server. What the server reads from a connection is what the user
wrote, and notices behind it.
-/

namespace Csci4061.Chat

open Csci4061.Lib Csci4061.Lib.TransitionSystem

variable {s s' : Network}

/-- A user whose end is closed has quit, and one who was admitted and has quit has closed its end. -/
structure QuitInv (s : Network) : Prop where
  closed : ∀ k, (s.traffic k).relay.userOpen = false →
    s.processes.clients k = [] ∧ k < s.processes.admitted.length
  quit : ∀ k, s.processes.admitted[k]? = some true → s.processes.clients k = [] →
    (s.traffic k).relay.userOpen = false

/-- A step which closes nothing and connects nobody keeps this. -/
theorem QuitInv.of_eq (h : QuitInv s) (hclients : s'.processes.clients = s.processes.clients)
    (hadmitted : s'.processes.admitted = s.processes.admitted)
    (hopen : ∀ k, (s'.traffic k).relay.userOpen = (s.traffic k).relay.userOpen) : QuitInv s' := by
  refine ⟨fun k hclosed => ?_, fun k hk hquit => ?_⟩
  · rw [hclients, hadmitted]
    exact h.closed k ((hopen k).symm.trans hclosed)
  · rw [hopen]
    exact h.quit k (hadmitted ▸ hk) (hclients ▸ hquit)

end Csci4061.Chat
