import Csci4061.Chat.Commands
import Csci4061.Lib.Attempts

/-!
# Who a broadcast reaches

`broadcast_msg` writes to one slot after the other and returns at the first `write` which fails. The
pipes do not block, so a reader which is slow is enough for that, and the users in later slots get
nothing. A broadcast reaches everyone exactly if no write but that for the last receiver fails.
-/

namespace Csci4061.Chat

open Csci4061.Lib

/-- A broadcast makes one write of the whole message to every full slot except that of the sender, none
to any other slot, and returns `0` exactly if all these writes succeed. -/
structure ReachesEveryone (buf : CString) (sender : Option (Fin maxUser))
    (outcomes : Fin maxUser → SlotOutcome) (t : Table) : Prop where
  delivered : ∃ new, (broadcastMsg buf sender outcomes t).2.events = t.events ++ new ∧
    (∀ event ∈ new, ∃ i, event = .wrote i (t.users i).fdToUser buf) ∧
    ∀ i, (writtenSlots new).count i = if t.Full i ∧ sender ≠ some i then 1 else 0
  returned : (broadcastMsg buf sender outcomes t).1 = 0 ↔
    ∀ i, t.Full i → sender ≠ some i → (outcomes i).write = true

/-- The writes of a text to some slots. -/
def writes (t : Table) (buf : CString) (slots : List (Fin maxUser)) : List Event :=
  slots.map fun i => .wrote i (t.users i).fdToUser buf

/-- The slots which some writes are made to. -/
theorem writtenSlots_writes (t : Table) (buf : CString) (slots : List (Fin maxUser)) :
    writtenSlots (writes t buf slots) = slots := by
  rw [writtenSlots, writes, List.filterMap_map]
  exact List.filterMap_some

/-- The loop tries the receivers until the first failure, and reports whether there was one. -/
theorem broadcastLoop_attempts (buf : CString) (sender : Option (Fin maxUser))
    (outcomes : Fin maxUser → SlotOutcome) (slots : List (Fin maxUser)) (t : Table) :
    (broadcastLoop buf sender outcomes slots t).2.events =
        t.events ++ writes t buf (attempts (fun i => (outcomes i).write) (receivers t sender slots)) ∧
      ((broadcastLoop buf sender outcomes slots t).1 = 0 ↔
        ∀ i ∈ receivers t sender slots, (outcomes i).write = true) := by
  induction slots generalizing t with
  | nil => exact ⟨(List.append_nil _).symm, by simp [broadcastLoop, receivers]⟩
  | cons i slots ih =>
    rw [broadcastLoop]
    by_cases hreceives : t.Full i ∧ sender ≠ some i
    · have hfilter : receivers t sender (i :: slots) = i :: receivers t sender slots :=
        List.filter_cons_of_pos (by simpa using hreceives)
      rw [if_pos hreceives, hfilter, List.forall_mem_cons]
      cases hwrite : (outcomes i).write with
      | false =>
        rw [attempts_cons_of_neg (p := fun i => (outcomes i).write) hwrite]
        exact ⟨rfl, by simp⟩
      | true =>
        obtain ⟨hevents, hreturned⟩ := ih (t.write i buf)
        rw [attempts_cons_of_pos (p := fun i => (outcomes i).write) hwrite]
        refine ⟨?_, hreturned.trans (and_iff_right rfl).symm⟩
        rw [if_neg (by decide), hevents, Table.write_events, List.append_assoc]
        rfl
    · have hfilter : receivers t sender (i :: slots) = receivers t sender slots :=
        List.filter_cons_of_neg (by simpa using hreceives)
      rw [if_neg hreceives, hfilter]
      exact ih t

/-- The slots which receive a broadcast are full and not that of the sender. -/
theorem mem_receivers {t : Table} {sender : Option (Fin maxUser)} {i : Fin maxUser} :
    i ∈ receivers t sender (List.finRange maxUser) ↔ t.Full i ∧ sender ≠ some i := by
  simp [receivers]

/-- They are gone over in order. -/
theorem receivers_pairwise (t : Table) (sender : Option (Fin maxUser)) :
    (receivers t sender (List.finRange maxUser)).Pairwise (· < ·) :=
  (List.pairwise_lt_finRange maxUser).filter _

/-- Every receiver is written to once exactly if the loop tries all of them. -/
theorem count_attempts_iff {xs tried : List (Fin maxUser)} (hxs : xs.Pairwise (· < ·))
    (hbegins : tried <+: xs) :
    (∀ i, tried.count i = if i ∈ xs then 1 else 0) ↔ tried = xs := by
  have hnodup : xs.Nodup := hxs.imp ne_of_lt
  constructor
  · intro hcount
    have hsubset : xs ⊆ tried := fun i hi => List.count_pos_iff.mp (by rw [hcount, if_pos hi]; decide)
    exact hbegins.eq_of_length_le (hnodup.subperm hsubset).length_le
  · rintro rfl i
    rw [hnodup.count]

/-- A broadcast reaches everyone exactly if a `write` fails for the last receiver only: whoever fails, no
receiver is in a later slot. -/
theorem reachesEveryone_iff_onlyLastFails (buf : CString) (sender : Option (Fin maxUser))
    (outcomes : Fin maxUser → SlotOutcome) (t : Table) :
    ReachesEveryone buf sender outcomes t ↔
      ∀ i, t.Full i → sender ≠ some i → (outcomes i).write = false → ∀ j, t.Full j → sender ≠ some j →
        j ≤ i := by
  obtain ⟨hevents, hreturned⟩ := broadcastLoop_attempts buf sender outcomes (List.finRange maxUser) t
  have hsorted := receivers_pairwise t sender
  have hall := attempts_eq_self_iff (p := fun i => (outcomes i).write) hsorted
  have hbegins := attempts_prefix (p := fun i => (outcomes i).write)
    (receivers t sender (List.finRange maxUser))
  simp only [mem_receivers, and_imp] at hreturned hall
  constructor
  · rintro ⟨⟨new, hnew, -, hcount⟩, -⟩
    rw [broadcastMsg, hevents] at hnew
    obtain rfl := List.append_cancel_left hnew
    rw [writtenSlots_writes] at hcount
    refine hall.mp ((count_attempts_iff hsorted hbegins).mp fun i => ?_)
    simp only [hcount, mem_receivers]
  · intro hlast
    rw [hall.mpr hlast] at hevents
    refine ⟨⟨_, hevents, ?_, fun i => ?_⟩, hreturned⟩
    · intro event hmem
      obtain ⟨i, -, rfl⟩ := List.mem_map.mp hmem
      exact ⟨i, rfl⟩
    · rw [writtenSlots_writes, (count_attempts_iff hsorted List.prefix_rfl).mpr rfl i]
      simp only [mem_receivers]

/-- The pipe of the first user is full. -/
def firstBlocked : Fin maxUser → SlotOutcome := fun i => ⟨true, true, i ≠ 0, -1⟩

/-- A message of the administrator does not reach the second user when the pipe of the first one is
full. -/
theorem firstBlocked_not_reachesEveryone : pairTable.Full 1 ∧ (firstBlocked 1).write = true ∧
    1 ∉ writtenSlots (broadcastMsg (bytes "admin-notice: hi") none firstBlocked pairTable).2.events ∧
    ¬ ReachesEveryone (bytes "admin-notice: hi") none firstBlocked pairTable := by
  have hwritten : writtenSlots
      (broadcastMsg (bytes "admin-notice: hi") none firstBlocked pairTable).2.events = [0] := by
    decide +kernel
  refine ⟨by decide, by decide, by rw [hwritten]; decide, ?_⟩
  rintro ⟨⟨new, hnew, -, hcount⟩, -⟩
  rw [hnew, show pairTable.events = [] from rfl, List.nil_append] at hwritten
  have hsecond := hcount 1
  rw [hwritten] at hsecond
  exact absurd hsecond (by decide)

end Csci4061.Chat
