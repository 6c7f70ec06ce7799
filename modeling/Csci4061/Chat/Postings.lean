import Csci4061.Chat.Broadcast
import Csci4061.Chat.Removal

/-!
# What one step of the server writes

A step of the server writes one text, to some slots. A listing and a private message go to one slot. A
broadcast is meant for every full slot but that of its sender, and since it stops at the first write
which fails, it reaches the first ones of these.
-/

namespace Csci4061.Chat

open Csci4061.Lib

/-- The event is a write. -/
def Event.IsWrite : Event → Prop
  | .wrote _ _ _ => True
  | _ => False

instance : (event : Event) → Decidable event.IsWrite
  | .wrote _ _ _ => isTrue trivial
  | .forked _ _ => isFalse id
  | .killed _ _ => isFalse id
  | .handled _ _ => isFalse id

/-- The sender of the broadcast which a step makes, if it makes one, with `none` for the administrator.
These are the lines and the messages for which the switch has no case of its own. -/
def broadcastOf (s : Server) : ServerLabel → Option (Option (Fin maxUser))
  | .admin (some data) _ =>
    match enteredLine (storeBytes s.buf data) with
    | some (some line) =>
      if getCommandType line ∈ [some .p2p, some .seg, some .broadcast] then some none else none
    | _ => none
  | .poll (some data) _ =>
    match s.phase with
    | .polling (i :: _) =>
      if s.table.Full i ∧ getCommandType (cString (storeBytes s.buf data)) ∈ [some .kick, some .seg,
        some .broadcast] then
        some (some i)
      else none
    | _ => none
  | _ => none

/-- The slots which a text is meant for, if it is written to some slots. -/
def intended (t : Table) (slots : List (Fin maxUser)) :
    Option (Option (Fin maxUser)) → List (Fin maxUser)
  | some sender => receivers t sender (List.finRange maxUser)
  | none => slots

/-- Between two tables one text was written to some slots in order, all of them full. Those for which
the write succeeds are the first ones of those which the text is meant for. -/
structure Posting (t t' : Table) (outcomes : Fin maxUser → SlotOutcome)
    (origin : Option (Option (Fin maxUser))) (text : CString) (slots : List (Fin maxUser)) : Prop where
  events : ∃ new, t'.events = t.events ++ new ∧
    new.filter (fun event => event.IsWrite) = writes t text slots
  sorted : slots.Pairwise (· < ·)
  full : ∀ i ∈ slots, t.Full i
  short : text.length ≤ maxMsg + maxUserId
  reached : slots.filter (fun i => (outcomes i).write) <+: intended t slots origin

variable {t t' : Table} {outcomes : Fin maxUser → SlotOutcome}

/-- The slots which a text is meant for are gone over in order. -/
theorem intended_pairwise {slots : List (Fin maxUser)} (h : slots.Pairwise (· < ·)) :
    (origin : Option (Option (Fin maxUser))) → (intended t slots origin).Pairwise (· < ·)
  | some sender => receivers_pairwise t sender
  | none => h

/-- Nothing was written. -/
theorem Posting.nothing {new : List Event} (hevents : t'.events = t.events ++ new)
    (hnone : ∀ event ∈ new, ¬ event.IsWrite) : Posting t t' outcomes none [] [] where
  events := ⟨new, hevents, List.filter_eq_nil_iff.mpr (by simpa using hnone)⟩
  sorted := List.Pairwise.nil
  full := by simp
  short := Nat.zero_le _
  reached := List.prefix_rfl

/-- One write to a full slot. -/
theorem Posting.single {i : Fin maxUser} {text : CString} (hfull : t.Full i)
    (hshort : text.length ≤ maxMsg + maxUserId) :
    Posting t (t.write i text) outcomes none text [i] where
  events := ⟨_, Table.write_events t i text, rfl⟩
  sorted := List.pairwise_singleton _ i
  full := by simpa using hfull
  short := hshort
  reached := by
    cases hi : (outcomes i).write with
    | true => simp [hi, intended]
    | false => simp [hi, intended]

/-- A broadcast. -/
theorem Posting.broadcast {sender : Option (Fin maxUser)} {text : CString}
    (hshort : text.length ≤ maxMsg + maxUserId) :
    ∃ slots, Posting t (broadcastMsg text sender outcomes t).2 outcomes (some sender) text slots := by
  obtain ⟨hevents, -⟩ := broadcastLoop_attempts text sender outcomes (List.finRange maxUser) t
  have hbegins := attempts_prefix (p := fun i => (outcomes i).write)
      (receivers t sender (List.finRange maxUser))
  refine ⟨_, ⟨_, hevents, ?_⟩, ?_, fun i hi => ?_, hshort, filter_attempts_prefix _⟩
  · refine List.filter_eq_self.mpr fun event hmem => ?_
    obtain ⟨i, -, rfl⟩ := List.mem_map.mp hmem
    rfl
  · exact (receivers_pairwise t sender).sublist hbegins.sublist
  · exact (mem_receivers.mp (hbegins.subset hi)).1

/-- A private message is one write, to the slot found or back to the sender. -/
theorem sendP2pMsg_posting {i : Fin maxUser} {buf : CString} (hi : t.Full i)
    (h : sendP2pMsg i buf t = some t') :
    ∃ text slots, Posting t t' outcomes none text slots := by
  obtain ⟨receiver, -, h⟩ := Option.bind_eq_some_iff.mp h
  cases receiver with
  | none => exact Option.some.inj h ▸ ⟨_, _, .single hi (by decide)⟩
  | some receiver =>
    simp only at h
    split at h
    · exact Option.some.inj h ▸ ⟨_, _, .single hi (by decide)⟩
    · rename_i index hindex
      split at h
      · exact Option.some.inj h ▸ ⟨_, _, .single hi (by decide)⟩
      · obtain ⟨message, -, h⟩ := Option.bind_eq_some_iff.mp h
        cases message with
        | none => exact Option.some.inj h ▸ ⟨_, _, .single hi (by decide)⟩
        | some message =>
          simp only at h
          split at h
          · rename_i hfits
            exact Option.some.inj h ▸ ⟨_, _, .single (findUserIndex_eq_some hindex).1 (by omega)⟩
          · exact absurd h (by simp)

/-- A listing for a user is one write to it. -/
theorem listUsers_posting {i : Fin maxUser} (hi : t.Full i) (h : listUsers (some i) t = some t') :
    ∃ text slots, Posting t t' outcomes none text slots := by
  obtain ⟨text, htext, rfl⟩ := Option.map_eq_some_iff.mp h
  refine ⟨_, _, .single hi ?_⟩
  rw [userListText] at htext
  split at htext
  · rename_i hfits
    obtain rfl := Option.some.inj htext
    rw [List.length_append, List.length_singleton]
    split
    · decide
    · exact Nat.add_le_add ((List.dropLast_sublist _).length_le.trans hfits) (by decide)
  · exact absurd htext (by simp)

/-- A message which was recorded before is no write. -/
theorem Posting.of_record {i : Fin maxUser} {message text : CString} {slots : List (Fin maxUser)}
    {origin : Option (Option (Fin maxUser))}
    (h : Posting (t.record (.handled i message)) t' outcomes origin text slots) :
    Posting t t' outcomes origin text slots := by
  obtain ⟨⟨new, hevents, hwrites⟩, hsorted, hfull, hshort, hreached⟩ := h
  refine ⟨⟨.handled i message :: new, ?_, hwrites⟩, hsorted, hfull, hshort, hreached⟩
  rw [hevents, Table.record_events, List.append_assoc, List.singleton_append]

/-- What the switch on a message of a user writes. -/
theorem userCommand_posting {i : Fin maxUser} {buf : CString} (hi : t.Full i)
    (h : userCommand i buf outcomes t = some t') :
    ∃ text slots, Posting t t' outcomes
      (if getCommandType buf ∈ [some .kick, some .seg, some .broadcast] then some (some i)
        else none) text slots := by
  obtain ⟨type, htype, h⟩ := Option.bind_eq_some_iff.mp h
  rw [htype]
  cases type with
  | list => exact listUsers_posting hi h
  | p2p => exact sendP2pMsg_posting hi h
  | exit =>
    obtain rfl := Option.some.inj h
    exact ⟨_, _, .nothing (kickUser_events i _ t) (by simp [Event.IsWrite])⟩
  | kick | seg | broadcast =>
    simp only at h
    split at h
    · exact Option.some.inj h ▸ ⟨_, Posting.broadcast (by omega)⟩
    · exact absurd h (by simp)

/-- The cleanup loop writes nothing. -/
theorem cleanupLoop_posting (slots : List (Fin maxUser)) :
    Posting t (cleanupLoop outcomes slots t) outcomes none [] [] := by
  have hevents : ∃ new, (cleanupLoop outcomes slots t).events = t.events ++ new ∧ ∀ event ∈ new,
      ¬ event.IsWrite := by
    induction slots generalizing t with
    | nil => exact ⟨[], (List.append_nil _).symm, by simp⟩
    | cons i slots ih =>
      rw [cleanupLoop]
      split
      · obtain ⟨new, hevents, hnone⟩ := @ih (kickUser i (outcomes i) t)
        refine ⟨.killed i (t.users i).pid :: new, ?_, List.forall_mem_cons.mpr ⟨id, hnone⟩⟩
        rw [hevents, kickUser_events, List.append_assoc, List.singleton_append]
      · exact ih
  obtain ⟨new, hevents, hnone⟩ := hevents
  exact .nothing hevents hnone

/-- What the switch on a line of the administrator writes. -/
theorem adminCommand_posting {s s' : Server} {line : CString}
    (h : adminCommand line outcomes s = some s') :
    ∃ text slots, Posting s.table s'.table outcomes
      (if getCommandType line ∈ [some .p2p, some .seg, some .broadcast] then some none
        else none) text slots := by
  have hnothing (t' : Table) (hevents : t'.events = s.table.events) :
      ∃ text slots, Posting s.table t' outcomes none text slots :=
    ⟨_, _, .nothing (hevents.trans (List.append_nil _).symm) (by simp)⟩
  obtain ⟨type, htype, h⟩ := Option.bind_eq_some_iff.mp h
  rw [htype]
  cases type with
  | list =>
    obtain ⟨t, hlist, rfl⟩ := Option.map_eq_some_iff.mp h
    obtain ⟨text, -, rfl⟩ := Option.map_eq_some_iff.mp hlist
    exact hnothing _ rfl
  | kick =>
    obtain ⟨name, -, h⟩ := Option.bind_eq_some_iff.mp h
    cases name with
    | none => exact Option.some.inj h ▸ hnothing _ rfl
    | some userId =>
      simp only at h
      split at h
      · exact Option.some.inj h ▸ hnothing _ rfl
      · rename_i idx hidx
        obtain rfl := Option.some.inj h
        exact ⟨_, _, .nothing (kickUser_events idx _ s.table) (by simp [Event.IsWrite])⟩
  | exit =>
    simp only [Option.some.injEq] at h
    subst h
    have hposting : Posting s.table (cleanupUsers outcomes s.table) outcomes none [] [] :=
      cleanupLoop_posting _
    simp only [List.mem_cons, Option.some.injEq, reduceCtorEq, List.not_mem_nil, or_false, if_false]
    exact ⟨[], [], hposting⟩
  | p2p | seg | broadcast =>
    simp only at h
    split at h
    · refine Option.some.inj h ▸ ⟨_, Posting.broadcast ?_⟩
      rename_i hfits
      have htag : (bytes "admin-notice: ").length ≤ maxUserId := by decide
      omega
    · exact absurd h (by simp)

/-- An admission writes nothing. -/
theorem acceptUser_posting {outcome : Option Connection} {s s' : Server}
    (h : acceptUser outcome s = some s') :
    Posting s.table s'.table outcomes none [] [] := by
  rcases acceptUser_cases h with ⟨-, hframe⟩ | ⟨c, idx, s₁, -, -, hframe, -, -, -, -, hadmission⟩
  · exact .nothing (hframe.events.trans (List.append_nil _).symm) (by simp)
  · obtain ⟨user, -, -, -, -, -, -, hevents, -⟩ := admitUser_cases hadmission
    rw [hframe.events] at hevents
    exact .nothing hevents (by simp [Event.IsWrite])

/-- What a step of the server writes. -/
theorem serverNext_posting {s s' : Server} {label : ServerLabel} (h : serverNext s label = some s') :
    ∃ text slots, Posting s.table s'.table label.outcomes (broadcastOf s label) text slots := by
  cases label with
  | accept outcome =>
    obtain ⟨-, s₁, haccept, rfl⟩ := serverNext_accept h
    have hposting : Posting s.table s₁.table (ServerLabel.accept outcome).outcomes none [] [] :=
      acceptUser_posting haccept
    exact ⟨[], [], hposting⟩
  | sleep =>
    obtain rfl := serverNext_sleep h
    exact ⟨[], [], .nothing (List.append_nil _).symm (by simp)⟩
  | admin input outcomes =>
    obtain ⟨hphase, hadmin⟩ := serverNext_admin h
    cases input with
    | none =>
      obtain rfl := Option.some.inj hadmin
      exact ⟨[], [], .nothing (List.append_nil _).symm (by simp)⟩
    | some data =>
      obtain ⟨line, hline, hadmin⟩ := Option.bind_eq_some_iff.mp hadmin
      cases line with
      | none =>
        obtain rfl := Option.some.inj hadmin
        rw [broadcastOf, hline]
        exact ⟨[], [], .nothing (List.append_nil _).symm (by simp)⟩
      | some line =>
        obtain ⟨s₁, hcommand, rfl⟩ := Option.map_eq_some_iff.mp hadmin
        obtain ⟨text, written, hposting⟩ := adminCommand_posting hcommand
        rw [broadcastOf, hline]
        exact ⟨text, written, hposting⟩
  | poll input outcomes =>
    obtain ⟨i, slots, s₁, hphase, hpoll, rfl⟩ := serverNext_poll h
    unfold pollUser at hpoll
    split at hpoll
    · rename_i hfull
      cases input with
      | none =>
        obtain rfl := Option.some.inj hpoll
        exact ⟨[], [], .nothing (List.append_nil _).symm (by simp)⟩
      | some data =>
        obtain ⟨t, hcommand, rfl⟩ := Option.map_eq_some_iff.mp hpoll
        have hrecorded : (s.table.record (.handled i (cString (storeBytes s.buf data)))).Full i := hfull
        obtain ⟨text, written, hposting⟩ := userCommand_posting hrecorded hcommand
        refine ⟨text, written, ?_⟩
        simp only [broadcastOf, hphase, hfull, true_and]
        exact hposting.of_record
    · rename_i hempty
      obtain rfl := Option.some.inj hpoll
      cases input with
      | none => exact ⟨[], [], .nothing (List.append_nil _).symm (by simp)⟩
      | some data =>
        simp only [broadcastOf, hphase, hempty, false_and, if_false]
        exact ⟨[], [], .nothing (List.append_nil _).symm (by simp)⟩

end Csci4061.Chat
